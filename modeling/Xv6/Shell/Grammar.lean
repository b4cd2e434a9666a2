import Xv6.Shell.Lexing

/-! The grammar of the shell, and how a tree is printed in it.

A tree is what a line means. `Derives` says which tokens stand for which trees; it knows of no
parser. Redirections may stand anywhere in a simple command, and only simple commands and
blocks may have them.
-/

set_option autoImplicit false

namespace Xv6.Shell

open Calls (O_RDONLY O_WRONLY O_CREAT)

inductive Direction where
  | input
  | output
  deriving DecidableEq

def Direction.mode : Direction → UInt64
  | input => O_RDONLY
  | output => O_WRONLY ||| O_CREAT

def Direction.fd : Direction → Int
  | input => 0
  | output => 1

inductive Redirect where
  | input
  | output
  | append

def Redirect.symbol : Redirect → Char
  | input => '<'
  | output => '>'
  | append => '+'

def Redirect.direction : Redirect → Direction
  | input => .input
  | output | append => .output

/-- A line with words of type `T`. -/
inductive Tree (T : Type) where
  | exec (words : List T)
  | redir (sub : Tree T) (file : T) (direction : Direction)
  | pipe (left right : Tree T)
  | list (left right : Tree T)
  | back (sub : Tree T)
  deriving DecidableEq

inductive Part (T : Type) where
  | word (t : T)
  | redirect (how : Redirect) (file : T)

section
variable {T U : Type}

def Part.word? : Part T → Option T
  | word t => some t
  | redirect _ _ => none

def Part.lexemes : Part T → List (Lexeme T)
  | word t => [.word t]
  | redirect how file => [.symbol how.symbol, .word file]

def spell (parts : List (Part T)) : List (Lexeme T) := parts.flatMap Part.lexemes

namespace Tree

def words : Tree T → List T
  | exec words => words
  | redir sub _ _ => sub.words
  | pipe _ _ | list _ _ | back _ => []

def push (t : T) : Tree T → Tree T
  | exec words => exec (words ++ [t])
  | redir sub file direction => redir (sub.push t) file direction
  | pipe left right => pipe left right
  | list left right => list left right
  | back sub => back sub

def add (tree : Tree T) : Part T → Tree T
  | .word t => tree.push t
  | .redirect how file => redir tree file how.direction

def addAll (tree : Tree T) (parts : List (Part T)) : Tree T := parts.foldl add tree

def Simple : Tree T → Prop
  | exec _ => True
  | redir sub _ _ => sub.Simple
  | pipe _ _ | list _ _ | back _ => False

def arena : Tree T → Nat
  | exec _ => execSize
  | redir sub _ _ => sub.arena + redirSize
  | pipe left right => left.arena + right.arena + pipeSize
  | list left right => left.arena + right.arena + listSize
  | back sub => sub.arena + backSize

/-- Every command has room for its words and a null pointer. -/
def Fits : Tree T → Prop
  | exec words => words.length < MAXARGS
  | redir sub _ _ => sub.Fits
  | pipe left right => left.Fits ∧ right.Fits
  | list left right => left.Fits ∧ right.Fits
  | back sub => sub.Fits

def map (f : T → U) : Tree T → Tree U
  | exec words => exec (words.map f)
  | redir sub file direction => redir (sub.map f) (f file) direction
  | pipe left right => pipe (left.map f) (right.map f)
  | list left right => list (left.map f) (right.map f)
  | back sub => back (sub.map f)

end Tree

end

inductive Level where
  /-- An operand of `|`. -/
  | exec
  /-- What may stand before `&`. -/
  | pipe
  /-- What may stand before `;`. -/
  | back
  | line
  deriving DecidableEq

def amp {T : Type} : Lexeme T := .symbol '&'

inductive Derives {T : Type} : Level → Tree T → List (Lexeme T) → Prop where
  | simple (parts : List (Part T)) (room : (parts.filterMap Part.word?).length < MAXARGS) :
      Derives .exec (Tree.addAll (.exec []) parts) (spell parts)
  | block {tree : Tree T} {ts : List (Lexeme T)} (inner : Derives .line tree ts) (redirects : List (Part T))
      (only : redirects.filterMap Part.word? = []) :
      Derives .exec (tree.addAll redirects) (.symbol '(' :: ts ++ .symbol ')' :: spell redirects)
  | exec {tree : Tree T} {ts : List (Lexeme T)} (inner : Derives .exec tree ts) : Derives .pipe tree ts
  | pipe {left right : Tree T} {ts us : List (Lexeme T)} (first : Derives .exec left ts)
      (second : Derives .pipe right us) : Derives .pipe (.pipe left right) (ts ++ .symbol '|' :: us)
  | front {tree : Tree T} {ts : List (Lexeme T)} (inner : Derives .pipe tree ts) : Derives .back tree ts
  | back {tree : Tree T} {ts : List (Lexeme T)} (inner : Derives .back tree ts) :
      Derives .back (.back tree) (ts ++ [amp])
  | last {tree : Tree T} {ts : List (Lexeme T)} (inner : Derives .back tree ts) : Derives .line tree ts
  | list {left right : Tree T} {ts us : List (Lexeme T)} (first : Derives .back left ts)
      (second : Derives .line right us) : Derives .line (.list left right) (ts ++ .symbol ';' :: us)

/-! ## Printing -/

section
variable {T : Type}

def Tree.level : Tree T → Level
  | exec _ | redir _ _ _ => .exec
  | pipe _ _ => .pipe
  | back _ => .back
  | list _ _ => .line

def Level.within : Level → Level → Bool
  | exec, _ => true
  | pipe, exec => false
  | pipe, _ => true
  | back, exec | back, pipe => false
  | back, _ => true
  | line, line => true
  | line, _ => false

def parens (bare : Bool) (ts : List (Lexeme T)) : List (Lexeme T) :=
  if bare then ts else .symbol '(' :: ts ++ [.symbol ')']

def Direction.redirect : Direction → Redirect
  | input => .input
  | output => .output

def Tree.tokens : Tree T → List (Lexeme T)
  | exec words => words.map .word
  | redir sub file direction =>
    parens (sub.level.within .exec) sub.tokens ++ [.symbol direction.redirect.symbol, .word file]
  | pipe left right =>
    parens (left.level.within .exec) left.tokens ++ .symbol '|' :: parens (right.level.within .pipe) right.tokens
  | list left right => parens (left.level.within .back) left.tokens ++ .symbol ';' :: right.tokens
  | back sub => parens (sub.level.within .back) sub.tokens ++ [amp]

theorem Derives.widen {level wider : Level} {tree : Tree T} {ts : List (Lexeme T)} (derives : Derives level tree ts)
    (within : level.within wider = true) : Derives wider tree ts := by
  cases level with
  | exec =>
    cases wider with
    | exec => exact derives
    | pipe => exact .exec derives
    | back => exact .front (.exec derives)
    | line => exact .last (.front (.exec derives))
  | pipe =>
    cases wider with
    | exec => cases within
    | pipe => exact derives
    | back => exact .front derives
    | line => exact .last (.front derives)
  | back =>
    cases wider with
    | exec => cases within
    | pipe => cases within
    | back => exact derives
    | line => exact .last derives
  | line =>
    cases wider with
    | exec => cases within
    | pipe => cases within
    | back => cases within
    | line => exact derives

theorem addAll_append (tree : Tree T) (first second : List (Part T)) :
    tree.addAll (first ++ second) = (tree.addAll first).addAll second := List.foldl_append

theorem spell_append (first second : List (Part T)) : spell (first ++ second) = spell first ++ spell second :=
  List.flatMap_append

theorem addAll_words (words before : List T) :
    (Tree.exec before).addAll (words.map .word) = .exec (before ++ words) := by
  induction words generalizing before with
  | nil => rw [List.append_nil]; rfl
  | cons word words ih =>
    have step := ih (before ++ [word])
    rw [List.append_assoc] at step
    exact step

theorem spell_words (words : List T) : spell (words.map .word) = words.map .word := by
  induction words with
  | nil => rfl
  | cons word words ih => exact congrArg (Lexeme.word word :: ·) ih

theorem word?_words (words : List T) : (words.map Part.word).filterMap Part.word? = words := by
  induction words with
  | nil => rfl
  | cons word words ih => exact congrArg (word :: ·) ih

theorem Derives.redirect {tree : Tree T} {ts : List (Lexeme T)} (derives : Derives .exec tree ts) (how : Redirect)
    (file : T) : Derives .exec (.redir tree file how.direction) (ts ++ [.symbol how.symbol, .word file]) := by
  have words : ∀ parts : List (Part T),
      (parts ++ [Part.redirect how file]).filterMap Part.word? = parts.filterMap Part.word? := by
    intro parts
    rw [List.filterMap_append]
    exact List.append_nil _
  cases derives with
  | simple parts room =>
    have more := Derives.simple (parts ++ [.redirect how file]) (by rw [words]; exact room)
    rw [addAll_append, spell_append] at more
    exact more
  | block inner redirects only =>
    have more := Derives.block inner (redirects ++ [.redirect how file]) ((words redirects).trans only)
    rw [addAll_append, spell_append, ← List.cons_append, ← List.append_assoc] at more
    exact more

theorem Derives.parens {tree : Tree T} {ts : List (Lexeme T)} (derives : Derives tree.level tree ts) (wider : Level) :
    Derives wider tree (parens (tree.level.within wider) ts) := by
  cases within : tree.level.within wider with
  | true => exact derives.widen within
  | false =>
    have inner : Derives .line tree ts := derives.widen (by cases tree.level <;> rfl)
    have block : Derives .exec tree (.symbol '(' :: ts ++ [.symbol ')']) := .block inner [] rfl
    exact block.widen (by cases wider <;> rfl)

theorem Direction.direction_redirect (direction : Direction) : direction.redirect.direction = direction := by
  cases direction with
  | input => rfl
  | output => rfl

theorem derives_tokens (tree : Tree T) (fits : tree.Fits) : Derives tree.level tree tree.tokens := by
  induction tree with
  | exec words =>
    have derives := Derives.simple (words.map .word) (by rw [word?_words]; exact fits)
    rw [addAll_words, spell_words] at derives
    exact derives
  | redir sub file direction ih =>
    have derives := ((ih fits).parens .exec).redirect direction.redirect file
    rw [direction.direction_redirect] at derives
    exact derives
  | pipe left right leftIh rightIh => exact .pipe ((leftIh fits.1).parens .exec) ((rightIh fits.2).parens .pipe)
  | list left right leftIh rightIh =>
    have second : Derives .line right right.tokens := (rightIh fits.2).widen (by cases right.level <;> rfl)
    exact .list ((leftIh fits.1).parens .back) second
  | back sub ih => exact .back ((ih fits).parens .back)

end

/-! ## Adding parts to a tree -/

section
variable {T : Type} {tree : Tree T} {t : T} {parts : List (Part T)}

theorem words_push (simple : tree.Simple) : (tree.push t).words = tree.words ++ [t] := by
  induction tree with
  | exec words => rfl
  | redir sub file direction ih => exact ih simple
  | pipe left right => cases simple
  | list left right => cases simple
  | back sub => cases simple

theorem simple_push (simple : tree.Simple) : (tree.push t).Simple := by
  induction tree with
  | exec words => exact simple
  | redir sub file direction ih => exact ih simple
  | pipe left right => cases simple
  | list left right => cases simple
  | back sub => cases simple

theorem arena_push : (tree.push t).arena = tree.arena := by
  induction tree with
  | exec words => rfl
  | redir sub file direction ih => exact congrArg (· + redirSize) ih
  | pipe left right => rfl
  | list left right => rfl
  | back sub => rfl

def partsArena (parts : List (Part T)) : Nat := redirSize * (parts.filter (·.word?.isNone)).length

theorem arena_addAll (tree : Tree T) (parts : List (Part T)) :
    (tree.addAll parts).arena = tree.arena + partsArena parts := by
  induction parts generalizing tree with
  | nil => rfl
  | cons part parts ih =>
    have step : (tree.addAll (part :: parts)).arena = ((tree.add part).addAll parts).arena := rfl
    rw [step, ih]
    cases part with
    | word t =>
      rw [Tree.add, arena_push]
      rfl
    | redirect how file =>
      have more : partsArena (.redirect how file :: parts) = partsArena parts + redirSize := rfl
      rw [more, Tree.add, Tree.arena, Nat.add_right_comm]
      rfl

theorem partsArena_redirect (how : Redirect) (file : T) (parts : List (Part T)) :
    partsArena (.redirect how file :: parts) = redirSize + partsArena parts := by
  rw [Nat.add_comm]
  rfl

theorem simple_addAll (simple : tree.Simple) : (tree.addAll parts).Simple := by
  induction parts generalizing tree with
  | nil => exact simple
  | cons part parts ih =>
    cases part with
    | word t => exact ih (simple_push simple)
    | redirect how file => exact ih simple

theorem words_addAll (parts : List (Part T)) (simple : tree.Simple) :
    (tree.addAll parts).words = tree.words ++ parts.filterMap Part.word? := by
  induction parts generalizing tree with
  | nil => exact (List.append_nil _).symm
  | cons part parts ih =>
    cases part with
    | word t =>
      have later := ih (simple_push (t := t) simple)
      rw [words_push simple, List.append_assoc] at later
      exact later
    | redirect how file =>
      have still : (tree.add (.redirect how file)).Simple := simple
      exact ih still

/-- The words of a simple command that has got one more word, and redirections. -/
theorem words_push_redirects {redirects : List (Part T)} (simple : tree.Simple)
    (only : redirects.filterMap Part.word? = []) :
    ((tree.push t).addAll redirects).words.length = tree.words.length + 1 := by
  rw [words_addAll _ (simple_push simple), only, words_push simple, List.append_nil, List.length_append,
    List.length_singleton]

end

example : (Tree.pipe (.list (.exec [1]) (.exec [])) (.redir (.exec [2]) 3 .input)).tokens =
    [.symbol '(', .word 1, .symbol ';', .symbol ')', .symbol '|', .word 2, .symbol '<', .word 3] := rfl

end Xv6.Shell
