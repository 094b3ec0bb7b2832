import Mathlib.Data.List.Basic

/-!
# The parser of the shell

`parsecmd` of `sh.c` and the functions it calls. A position in the line is kept with the characters from
there to the end `es`. Loops and recursion take fuel; where the code calls `panic` or would write past
the end of `argv`, the result is an error.
-/

namespace Espl.Shell

abbrev Letter : Type := { c : UInt8 // c ≠ 0 }

def code (c : Char) : UInt8 := c.val.toUInt8

def codes (s : List Char) : List UInt8 := s.map code

def whitespace : List UInt8 := codes [' ', '\t', '\r', '\n', '\x0b']

def symbols : List UInt8 := codes ['<', '|', '>', '&', ';', '(', ')']

abbrev MAXARGS : Nat := 10

def O_RDONLY : Nat := 0x000

def O_WRONLY : Nat := 0x001

def O_CREATE : Nat := 0x200

/-- The first character of a word and the one after its last, as positions in the line. -/
structure Span where
  q : Nat
  eq : Nat
  deriving DecidableEq, Repr

/-- The commands; of the arguments of an EXEC only those before the null pointer. -/
inductive Cmd where
  | exec (argv : List Span)
  | redir (cmd : Cmd) (file : Span) (mode fd : Nat)
  | pipe (left right : Cmd)
  | list (left right : Cmd)
  | back (cmd : Cmd)
  deriving DecidableEq, Repr

inductive Panic where
  | missingFile | parseblock | missingParen | malformed | tooManyArgs
  deriving DecidableEq, Repr

/-- How parsing can stop: in a panic, out of fuel or at a write past the end of `argv`. -/
inductive Stop where
  | panic (p : Panic)
  | fuel
  | overflow
  deriving DecidableEq, Repr

structure Cursor where
  pos : Nat
  rest : List Letter

namespace Cursor

/-- `*s`, which is NUL at `es`. -/
def head (s : Cursor) : UInt8 :=
  match s.rest with
  | [] => 0
  | c :: _ => c

/-- `s++`. -/
def next (s : Cursor) : Cursor := ⟨s.pos + 1, s.rest.tail⟩

/-- The loop that goes past the characters with `p`, to `es` at most. -/
def skip (p : UInt8 → Bool) (pos : Nat) : List Letter → Cursor
  | [] => ⟨pos, []⟩
  | c :: rest => if p c then skip p (pos + 1) rest else ⟨pos, c :: rest⟩

/-- `while(s < es && strchr(whitespace, *s)) s++`. -/
def skipWhite (s : Cursor) : Cursor := skip (fun c => whitespace.contains c) s.pos s.rest

/-- `while(s < es && !strchr(whitespace, *s) && !strchr(symbols, *s)) s++`. -/
def skipWord (s : Cursor) : Cursor := skip (fun c => !whitespace.contains c && !symbols.contains c) s.pos s.rest

end Cursor

/-- The `switch` of `gettoken` at the first character after white space. -/
def gettoken.token (s : Cursor) : UInt8 × Cursor :=
  if s.head = 0 then (0, s)
  else if (codes ['|', '(', ')', ';', '&', '<']).contains s.head then (s.head, s.next)
  else if s.head = code '>' then
    if s.next.head = code '>' then (code '+', s.next.next) else (code '>', s.next)
  else (code 'a', s.skipWord)

/-- `gettoken`: the token, its span and where the next one starts. -/
def gettoken (s : Cursor) : UInt8 × Span × Cursor :=
  let s := s.skipWhite
  let (ret, e) := gettoken.token s
  (ret, ⟨s.pos, e.pos⟩, e.skipWhite)

def peek (s : Cursor) (toks : List UInt8) : Bool × Cursor :=
  let s := s.skipWhite
  (s.head ≠ 0 && toks.contains s.head, s)

abbrev Parse : Type := Except Stop (Cmd × Cursor)

def redirected (tok : UInt8) (cmd : Cmd) (file : Span) : Cmd :=
  if tok = code '<' then .redir cmd file O_RDONLY 0
  else if tok = code '>' then .redir cmd file (O_WRONLY ||| O_CREATE) 1
  else if tok = code '+' then .redir cmd file (O_WRONLY ||| O_CREATE) 1
  else cmd

def parseredirs : Nat → Cmd → Cursor → Parse
  | 0, _, _ => .error .fuel
  | fuel + 1, cmd, s =>
    let (more, s) := peek s (codes ['<', '>'])
    if more then
      let (tok, _, s) := gettoken s
      let (word, file, s) := gettoken s
      if word ≠ code 'a' then .error (.panic .missingFile)
      else parseredirs fuel (redirected tok cmd file) s
    else .ok (cmd, s)

/-- `cmd->argv[argc] = q; cmd->eargv[argc] = eq` on the EXEC inside the redirections. -/
def Cmd.addArg (word : Span) : Cmd → Cmd
  | .exec argv => .exec (argv ++ [word])
  | .redir cmd file mode fd => .redir (cmd.addArg word) file mode fd
  | cmd => cmd

/-- The loop of `parseexec` and the null pointer that it ends with. -/
def parseexec.loop : Nat → Cmd → Nat → Cursor → Parse
  | 0, _, _, _ => .error .fuel
  | fuel + 1, ret, argc, s =>
    let (stop, s) := peek s (codes ['|', ')', '&', ';'])
    if stop then (if MAXARGS ≤ argc then .error .overflow else .ok (ret, s))
    else
      let (tok, word, s) := gettoken s
      if tok = 0 then (if MAXARGS ≤ argc then .error .overflow else .ok (ret, s))
      else if tok ≠ code 'a' then .error (.panic .malformed)
      else if MAXARGS ≤ argc then .error .overflow
      else if MAXARGS ≤ argc + 1 then .error (.panic .tooManyArgs)
      else
        match parseredirs fuel (ret.addArg word) s with
        | .error e => .error e
        | .ok (ret, s) => parseexec.loop fuel ret (argc + 1) s

def parseline.loop : Nat → Cmd → Cursor → Parse
  | 0, _, _ => .error .fuel
  | fuel + 1, cmd, s =>
    let (more, s) := peek s (codes ['&'])
    if more then
      let (_, _, s) := gettoken s
      parseline.loop fuel (.back cmd) s
    else .ok (cmd, s)

mutual

def parseline : Nat → Cursor → Parse
  | 0, _ => .error .fuel
  | fuel + 1, s => do
    let (cmd, s) ← parsepipe fuel s
    let (cmd, s) ← parseline.loop fuel cmd s
    let (more, s) := peek s (codes [';'])
    if more then
      let (_, _, s) := gettoken s
      let (right, s) ← parseline fuel s
      return (.list cmd right, s)
    else return (cmd, s)

def parsepipe : Nat → Cursor → Parse
  | 0, _ => .error .fuel
  | fuel + 1, s => do
    let (cmd, s) ← parseexec fuel s
    let (more, s) := peek s (codes ['|'])
    if more then
      let (_, _, s) := gettoken s
      let (right, s) ← parsepipe fuel s
      return (.pipe cmd right, s)
    else return (cmd, s)

def parseblock : Nat → Cursor → Parse
  | 0, _ => .error .fuel
  | fuel + 1, s => do
    let (opens, s) := peek s (codes ['('])
    if !opens then .error (.panic .parseblock)
    else
      let (_, _, s) := gettoken s
      let (cmd, s) ← parseline fuel s
      let (closes, s) := peek s (codes [')'])
      if !closes then .error (.panic .missingParen)
      else
        let (_, _, s) := gettoken s
        parseredirs fuel cmd s

def parseexec : Nat → Cursor → Parse
  | 0, _ => .error .fuel
  | fuel + 1, s => do
    let (block, s) := peek s (codes ['('])
    if block then parseblock fuel s
    else
      let (ret, s) ← parseredirs fuel (.exec []) s
      parseexec.loop fuel ret 0 s

end

def letters : List UInt8 → List Letter
  | [] => []
  | c :: rest => if nonzero : c ≠ 0 then ⟨c, nonzero⟩ :: letters rest else []

/-- `nulterminate`: the buffer with a NUL after each word. -/
def nulterminate (buf : List UInt8) : Cmd → List UInt8
  | .exec argv => argv.foldl (fun buf word => buf.set word.eq 0) buf
  | .redir cmd file _ _ => (nulterminate buf cmd).set file.eq 0
  | .pipe left right => nulterminate (nulterminate buf left) right
  | .list left right => nulterminate (nulterminate buf left) right
  | .back cmd => nulterminate buf cmd

/-- `parsecmd`: the command and the buffer with its words terminated. -/
def parsecmd (buf : List UInt8) : Except Stop (Cmd × List UInt8) := do
  let line := letters buf
  let (cmd, s) ← parseline (4 * line.length + 4) ⟨0, line⟩
  let (_, s) := peek s []
  if s.rest ≠ [] then .error (.panic .malformed)
  else return (cmd, nulterminate buf cmd)

end Espl.Shell
