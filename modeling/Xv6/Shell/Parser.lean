import Xv6.File.Operations

/-! The parser of the shell, `user/src/sh/main.c`, from `malloc1` to `nulterminate`.

While the parser runs it does not write to the line, so a pointer into the line is the text from
there up to `es`: `*s` is its first character, and at `es` the terminator. The nodes are a tree,
each with the fields of its struct; a loop or a recursion of the source takes one unit of fuel a
turn.
-/

set_option autoImplicit false

namespace Xv6.Shell

open Calls (O_RDONLY O_WRONLY O_CREAT)

def MAXARGS : Nat := 10

-- The bytes of `malloc1`.
def MAXN : Nat := 10000

def nul : Char := '\x00'

def whitespace : List Char := [' ', '\t', '\r', '\n', '\x0b']

def symbols : List Char := ['<', '|', '>', '&', ';', '(', ')']

abbrev Ptr := List Char

inductive Cmd where
  /-- `argv` and `eargv` are null pointers from the last word on. -/
  | exec (argv eargv : List (Option Ptr))
  | redir (cmd : Cmd) (file efile : Ptr) (mode : UInt64) (fd : Int)
  | pipe (left right : Cmd)
  | list (left right : Cmd)
  | back (cmd : Cmd)

/-! ## What the parser is written in -/

/-- What the parser changes: the pointer `*ps`, and the bytes that `malloc1` has given out. -/
structure Scan where
  ps : Ptr
  used : Nat

inductive Stop where
  | panic (text : String)
  /-- `leftovers: ` with the rest of the line, and the panic `syntax`. -/
  | leftovers (rest : Ptr)
  /-- `malloc1: memory used out` -/
  | usedOut
  deriving DecidableEq

inductive Outcome (A : Type) where
  | done (value : A) (scan : Scan)
  | stop (why : Stop)
  /-- More turns than there is fuel for. -/
  | unfinished

def Parse (A : Type) : Type := Scan → Outcome A

namespace Parse

variable {A B : Type}

instance : Monad Parse where
  pure value := fun scan => .done value scan
  bind p k := fun scan =>
    match p scan with
    | .done value scan => k value scan
    | .stop why => .stop why
    | .unfinished => .unfinished

def stop (why : Stop) : Parse A := fun _ => .stop why

def panic (text : String) : Parse A := stop (.panic text)

def unfinished : Parse A := fun _ => .unfinished

end Parse

/-! ## The constructors -/

def malloc1 (sz : Nat) : Parse Unit := fun scan =>
  if scan.used + sz > MAXN then .stop .usedOut else .done () { scan with used := scan.used + sz }

-- `sizeof(struct execcmd)`, and so on for the others.
def execSize : Nat := 168
def redirSize : Nat := 40
def pipeSize : Nat := 24
def listSize : Nat := 24
def backSize : Nat := 16

def execcmd : Parse Cmd := do
  malloc1 execSize
  return .exec (List.replicate MAXARGS none) (List.replicate MAXARGS none)

def redircmd (subcmd : Cmd) (file efile : Ptr) (mode : UInt64) (fd : Int) : Parse Cmd := do
  malloc1 redirSize
  return .redir subcmd file efile mode fd

def pipecmd (left right : Cmd) : Parse Cmd := do
  malloc1 pipeSize
  return .pipe left right

def listcmd (left right : Cmd) : Parse Cmd := do
  malloc1 listSize
  return .list left right

def backcmd (subcmd : Cmd) : Parse Cmd := do
  malloc1 backSize
  return .back subcmd

/-! ## Scanning -/

-- `while (s < es && strchr(whitespace, *s)) s++;`
def skip (s : Ptr) : Ptr := s.dropWhile fun c => whitespace.contains c

def plain (c : Char) : Bool := !whitespace.contains c && !symbols.contains c

-- The `switch` of `gettoken`: the kind of token at `s`, and its end.
def scanToken (s : Ptr) : Char × Ptr :=
  match s with
  | [] => (nul, s)
  | c :: rest =>
    if c ∈ ['|', '(', ')', ';', '&', '<'] then (c, rest)
    else if c = '>' then
      if rest.head? = some '>' then ('+', rest.tail) else ('>', rest)
    else ('a', s.dropWhile plain)

structure Token where
  q : Ptr
  eq : Ptr

def gettoken : Parse (Char × Token) := fun scan =>
  let s := skip scan.ps
  let (ret, eq) := scanToken s
  .done (ret, ⟨s, eq⟩) { scan with ps := skip eq }

def peek (toks : List Char) : Parse Bool := fun scan =>
  let s := skip scan.ps
  .done (s.head?.any fun c => toks.contains c) { scan with ps := s }

/-! ## Parsing -/

def parseredirs : Nat → Cmd → Parse Cmd
  | 0, _ => Parse.unfinished
  | fuel + 1, cmd => do
    if ← peek ['<', '>'] then
      let (tok, _) ← gettoken
      let (file, t) ← gettoken
      if file ≠ 'a' then
        Parse.panic "missing file for redirection"
      else if tok = '<' then
        parseredirs fuel (← redircmd cmd t.q t.eq O_RDONLY 0)
      else if tok = '>' then
        parseredirs fuel (← redircmd cmd t.q t.eq (O_WRONLY ||| O_CREAT) 1)
      else if tok = '+' then
        parseredirs fuel (← redircmd cmd t.q t.eq (O_WRONLY ||| O_CREAT) 1)
      else
        parseredirs fuel cmd
    else
      return cmd

/-- `cmd->argv[argc] = q; cmd->eargv[argc] = eq;` where `cmd` is the node of `execcmd` that is under
the redirections of `ret`. -/
def Cmd.setArg (argc : Nat) (q eq : Option Ptr) : Cmd → Cmd
  | exec argv eargv => exec (argv.set argc q) (eargv.set argc eq)
  | redir cmd file efile mode fd => redir (cmd.setArg argc q eq) file efile mode fd
  | pipe left right => pipe left right
  | list left right => list left right
  | back cmd => back cmd

-- The `while` of `parseexec`, and what follows it.
def parseargs : Nat → Nat → Cmd → Parse Cmd
  | 0, _, _ => Parse.unfinished
  | fuel + 1, argc, ret => do
    if ← peek ['|', ')', '&', ';'] then
      return ret.setArg argc none none
    else
      let (tok, t) ← gettoken
      if tok = nul then
        return ret.setArg argc none none
      else if tok ≠ 'a' then
        Parse.panic "syntax"
      else if argc + 1 ≥ MAXARGS then
        Parse.panic "too many args"
      else
        let ret ← parseredirs fuel (ret.setArg argc (some t.q) (some t.eq))
        parseargs fuel (argc + 1) ret

-- The `while` of `parseline`.
def parseback : Nat → Cmd → Parse Cmd
  | 0, _ => Parse.unfinished
  | fuel + 1, cmd => do
    if ← peek ['&'] then
      let _ ← gettoken
      parseback fuel (← backcmd cmd)
    else
      return cmd

mutual

def parseline : Nat → Parse Cmd
  | 0 => Parse.unfinished
  | fuel + 1 => do
    let cmd ← parseback fuel (← parsepipe fuel)
    if ← peek [';'] then
      let _ ← gettoken
      listcmd cmd (← parseline fuel)
    else
      return cmd

def parsepipe : Nat → Parse Cmd
  | 0 => Parse.unfinished
  | fuel + 1 => do
    let cmd ← parseexec fuel
    if ← peek ['|'] then
      let _ ← gettoken
      pipecmd cmd (← parsepipe fuel)
    else
      return cmd

def parseexec : Nat → Parse Cmd
  | 0 => Parse.unfinished
  | fuel + 1 => do
    if ← peek ['('] then
      parseblock fuel
    else
      let cmd ← execcmd
      let ret ← parseredirs fuel cmd
      parseargs fuel 0 ret

def parseblock : Nat → Parse Cmd
  | 0 => Parse.unfinished
  | fuel + 1 => do
    if ← peek ['('] then
      let _ ← gettoken
      let cmd ← parseline fuel
      if ← peek [')'] then
        let _ ← gettoken
        parseredirs fuel cmd
      else
        Parse.panic "syntax - missing )"
    else
      Parse.panic "parseblock"

end

/-! ## The strings of a tree -/

/-- The array that holds the line, and where `nulterminate` has written to it. -/
structure Buffer where
  chars : List Char
  writes : List Nat

-- `*p = 0`, `at_` characters from the start of the array.
def Buffer.terminate (at_ : Nat) (buf : Buffer) : Option Buffer :=
  if at_ < buf.chars.length then some ⟨buf.chars.set at_ nul, buf.writes ++ [at_]⟩ else none

def terminateArgs (es : Nat) : List (Option Ptr) → List (Option Ptr) → Buffer → Option Buffer
  | some _ :: argv, some eq :: eargv, buf => (buf.terminate (es - eq.length)).bind (terminateArgs es argv eargv)
  | none :: _, _, buf => some buf
  | _, _, _ => none

def nulterminate (es : Nat) : Cmd → Buffer → Option Buffer
  | .exec argv eargv, buf => terminateArgs es argv eargv buf
  | .redir cmd _ efile _ _, buf => (nulterminate es cmd buf).bind (·.terminate (es - efile.length))
  | .pipe left right, buf => (nulterminate es left buf).bind (nulterminate es right)
  | .list left right, buf => (nulterminate es left buf).bind (nulterminate es right)
  | .back cmd, buf => nulterminate es cmd buf

-- `s + strlen(s)` bounds the line that `buf` starts with.
def line (buf : List Char) : Ptr := buf.takeWhile fun c => c ≠ nul

/-- The tree of a line, and the array after `nulterminate`; `none` if that left the array or an `argv`. -/
def parsecmd (fuel used : Nat) (buf : List Char) : Outcome (Cmd × Option Buffer) :=
  (do
    let cmd ← parseline fuel
    let _ ← peek []
    let s ← (fun scan => .done scan.ps scan : Parse Ptr)
    if s ≠ [] then
      Parse.stop (.leftovers s)
    else
      return (cmd, nulterminate (line buf).length cmd ⟨buf, []⟩) : Parse (Cmd × Option Buffer)) ⟨line buf, used⟩

end Xv6.Shell
