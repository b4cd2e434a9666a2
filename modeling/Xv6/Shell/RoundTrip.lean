import Xv6.Shell.Strings

/-! A printed tree is parsed to the same tree, and every line comes to an end. -/

set_option autoImplicit false

namespace Xv6.Shell

/-- A word that a line can hold. -/
structure Word where
  chars : List Char
  nonempty : chars ≠ []
  plain : ∀ c ∈ chars, plain c = true
  noNul : nul ∉ chars

def Lexeme.map {T U : Type} (f : T → U) : Lexeme T → Lexeme U
  | symbol c => symbol c
  | word t => word (f t)

def Lexeme.text : Lexeme Word → List Char
  | symbol c => [c]
  | word w => w.chars

def spaced (ls : List (Lexeme Word)) : List Char := ls.flatMap fun l => l.text ++ [' ']

def print (tree : Tree Word) : List Char := spaced tree.tokens

/-! ## The tokens of a printed text -/

def Single {T : Type} (ls : List (Lexeme T)) : Prop := ∀ c, .symbol c ∈ ls → c ∈ symbols

section
variable {T : Type} {ls us : List (Lexeme T)}

theorem Single.append (first : Single ls) (second : Single us) : Single (ls ++ us) := by
  intro c member
  rcases List.mem_append.mp member with member | member
  · exact first c member
  · exact second c member

theorem Single.cons {c : Char} (known : c ∈ symbols) (rest : Single ls) : Single (.symbol c :: ls) := by
  intro d member
  rcases List.mem_cons.mp member with same | member
  · cases same
    exact known
  · exact rest d member

theorem Single.parens (bare : Bool) (single : Single ls) : Single (parens bare ls) := by
  cases bare with
  | true => exact single
  | false => exact (single.cons (by decide)).append (Single.cons (by decide) nofun)

theorem single_tokens (tree : Tree T) : Single tree.tokens := by
  induction tree with
  | exec words =>
    intro c member
    obtain ⟨word, _, same⟩ := List.mem_map.mp member
    cases same
  | redir sub file direction ih =>
    apply (ih.parens _).append
    intro c member
    rcases List.mem_cons.mp member with same | member
    · cases same
      cases direction with
      | input => decide
      | output => decide
    · cases List.mem_singleton.mp member
  | pipe left right leftIh rightIh => exact (leftIh.parens _).append ((rightIh.parens _).cons (by decide))
  | list left right leftIh rightIh => exact (leftIh.parens _).append (rightIh.cons (by decide))
  | back sub ih => exact (ih.parens _).append (Single.cons (by decide) nofun)

end

theorem skip_of_not_white {c : Char} {rest : Ptr} (notWhite : whitespace.contains c = false) :
    skip (c :: rest) = c :: rest := by
  rw [skip, List.dropWhile_cons_of_neg (by simpa using notWhite)]

theorem lexemes_space (s : Ptr) : lexemes (' ' :: s) = lexemes s := by
  have same : skip (' ' :: s) = skip s := rfl
  rw [← lexemes_skip, same, lexemes_skip]

theorem lexemes_spaced_symbol {c : Char} (known : c ∈ symbols) (rest : Ptr) :
    lexemes (c :: ' ' :: rest) = .symbol c :: lexemes rest := by
  have scanned : scanToken (c :: ' ' :: rest) = (c, ' ' :: rest) := by
    rcases scanToken_symbol (' ' :: rest) known with both | ⟨_, _, split⟩
    · exact Prod.ext both.1 both.2
    · cases split
  rw [lexemes_symbol (skip_of_not_white (not_white_of_symbol known)) known, scanned, lexemes_space]

theorem lexemes_spaced_word (w : Word) (rest : Ptr) :
    lexemes (w.chars ++ ' ' :: rest) = .word ⟨w.chars ++ ' ' :: rest, ' ' :: rest⟩ :: lexemes rest := by
  have ends : (w.chars ++ ' ' :: rest).dropWhile plain = ' ' :: rest := by
    rw [List.dropWhile_append_of_pos w.plain]
    rfl
  cases split : w.chars with
  | nil => exact absurd split w.nonempty
  | cons c more =>
    have isPlain := w.plain c (split ▸ List.mem_cons_self)
    rw [split] at ends
    rw [List.cons_append] at ends ⊢
    rw [lexemes_word (skip_of_not_white (plain_iff.mp isPlain).1) isPlain, ends, lexemes_space]

theorem text_spaced (w : Word) (rest : Ptr) : Token.text ⟨w.chars ++ ' ' :: rest, ' ' :: rest⟩ = w.chars := by
  rw [Token.text, List.length_append, Nat.add_sub_cancel, List.take_left]

theorem lexemes_spaced {ls : List (Lexeme Word)} (single : Single ls) :
    (lexemes (spaced ls)).map (Lexeme.map Token.text) = ls.map (Lexeme.map Word.chars) := by
  induction ls with
  | nil =>
    have none : lexemes [] = [] := lexemes_of_skip_nil rfl
    rw [spaced, List.flatMap_nil, none]
    rfl
  | cons l ls ih =>
    have later := ih fun c member => single c (.tail l member)
    cases l with
    | symbol c =>
      have split : spaced (.symbol c :: ls) = c :: ' ' :: spaced ls := rfl
      rw [split, lexemes_spaced_symbol (single c List.mem_cons_self), List.map_cons, later]
      rfl
    | word w =>
      have split : spaced (.word w :: ls) = w.chars ++ ' ' :: spaced ls := by
        rw [spaced, List.flatMap_cons, List.append_assoc]
        rfl
      rw [split, lexemes_spaced_word, List.map_cons, later, Lexeme.map, text_spaced]
      rfl

/-! ## Trees over the same tokens -/

section
variable {T U V : Type} {f : T → V} {g : U → V}

theorem level_map (tree : Tree T) : (tree.map f).level = tree.level := by
  cases tree with
  | exec words => rfl
  | redir sub file direction => rfl
  | pipe left right => rfl
  | list left right => rfl
  | back sub => rfl

theorem arena_map (tree : Tree T) : (tree.map f).arena = tree.arena := by
  induction tree with
  | exec words => rfl
  | redir sub file direction ih => exact congrArg (· + redirSize) ih
  | pipe left right leftIh rightIh => exact congrArg₂ (fun a b => a + b + pipeSize) leftIh rightIh
  | list left right leftIh rightIh => exact congrArg₂ (fun a b => a + b + listSize) leftIh rightIh
  | back sub ih => exact congrArg (· + backSize) ih

theorem fits_map (tree : Tree T) : (tree.map f).Fits ↔ tree.Fits := by
  induction tree with
  | exec words =>
    change (words.map f).length < MAXARGS ↔ words.length < MAXARGS
    rw [List.length_map]
  | redir sub file direction ih => exact ih
  | pipe left right leftIh rightIh => exact and_congr leftIh rightIh
  | list left right leftIh rightIh => exact and_congr leftIh rightIh
  | back sub ih => exact ih

theorem Lexeme.map_eq_symbol {l : Lexeme U} {c : Char} (same : l.map g = .symbol c) : l = .symbol c := by
  cases l with
  | symbol d => exact congrArg _ (Lexeme.symbol.inj same)
  | word u => cases same

def Lifts (f : T → V) (g : U → V) (tree : Tree T) (of : Tree U → List (Lexeme U)) (ls : List (Lexeme T)) : Prop :=
  ∀ us : List (Lexeme U), us.map (Lexeme.map g) = ls.map (Lexeme.map f) →
    ∃ tree' : Tree U, of tree' = us ∧ tree'.map g = tree.map f

theorem Lifts.parens {tree : Tree T} (lifts : Lifts f g tree Tree.tokens tree.tokens) (wider : Level) :
    Lifts f g tree (fun tree' => parens (tree'.level.within wider) tree'.tokens)
      (parens (tree.level.within wider) tree.tokens) := by
  intro us same
  have level : ∀ tree' : Tree U, tree'.map g = tree.map f → tree'.level = tree.level := by
    intro tree' maps
    rw [← level_map (f := g) tree', maps, level_map]
  cases bare : tree.level.within wider with
  | true =>
    rw [bare] at same
    obtain ⟨tree', tokens, maps⟩ := lifts us same
    exact ⟨tree', by simp only [level tree' maps, bare]; exact tokens, maps⟩
  | false =>
    rw [bare] at same
    have inBrackets : us.map (Lexeme.map g) =
        .symbol '(' :: (tree.tokens.map (Lexeme.map f) ++ [.symbol ')']) := by
      rw [same]
      exact congrArg (Lexeme.symbol '(' :: ·) List.map_append
    obtain ⟨opening, others, rfl, isOpening, inBrackets⟩ := List.map_eq_cons_iff.mp inBrackets
    obtain ⟨inner, last, rfl, isInner, isLast⟩ := List.map_eq_append_iff.mp inBrackets
    obtain ⟨closing, none, rfl, isClosing, isNone⟩ := List.map_eq_cons_iff.mp isLast
    obtain ⟨tree', tokens, maps⟩ := lifts inner isInner
    refine ⟨tree', ?_, maps⟩
    simp only [level tree' maps, bare]
    rw [tokens, Lexeme.map_eq_symbol isOpening, Lexeme.map_eq_symbol isClosing, List.map_eq_nil_iff.mp isNone]
    rfl

theorem lift_words {words : List T} {us : List (Lexeme U)}
    (same : us.map (Lexeme.map g) = (words.map Lexeme.word).map (Lexeme.map f)) :
    ∃ words' : List U, us = words'.map .word ∧ words'.map g = words.map f := by
  induction words generalizing us with
  | nil => exact ⟨[], List.map_eq_nil_iff.mp same, rfl⟩
  | cons word words ih =>
    obtain ⟨u, us, rfl, first, rest⟩ := List.map_eq_cons_iff.mp same
    obtain ⟨words', isWords, maps⟩ := ih rest
    cases u with
    | symbol c => cases first
    | word u =>
      refine ⟨u :: words', congrArg _ isWords, ?_⟩
      rw [List.map_cons, List.map_cons, maps, Lexeme.word.inj first]

theorem lift_tokens (f : T → V) (g : U → V) (tree : Tree T) : Lifts f g tree Tree.tokens tree.tokens := by
  induction tree with
  | exec words =>
    intro us same
    obtain ⟨words', isWords, maps⟩ := lift_words same
    exact ⟨.exec words', isWords.symm, congrArg Tree.exec maps⟩
  | redir sub file direction ih =>
    intro us same
    rw [Tree.tokens, List.map_append] at same
    obtain ⟨front, redirect, rfl, isFront, isRedirect⟩ := List.map_eq_append_iff.mp same
    obtain ⟨how, last, rfl, isHow, isLast⟩ := List.map_eq_cons_iff.mp isRedirect
    obtain ⟨word, none, rfl, isWord, isNone⟩ := List.map_eq_cons_iff.mp isLast
    obtain ⟨sub', tokens, maps⟩ := ih.parens .exec front isFront
    cases word with
    | symbol c => cases isWord
    | word file' =>
      refine ⟨.redir sub' file' direction, ?_, ?_⟩
      · rw [← tokens, Lexeme.map_eq_symbol isHow, List.map_eq_nil_iff.mp isNone]
        rfl
      · rw [Tree.map, Tree.map, maps, Lexeme.word.inj isWord]
  | pipe left right leftIh rightIh =>
    intro us same
    rw [Tree.tokens, List.map_append] at same
    obtain ⟨front, others, rfl, isFront, isOthers⟩ := List.map_eq_append_iff.mp same
    obtain ⟨bar, back, rfl, isBar, isBack⟩ := List.map_eq_cons_iff.mp isOthers
    obtain ⟨left', leftTokens, leftMaps⟩ := leftIh.parens .exec front isFront
    obtain ⟨right', rightTokens, rightMaps⟩ := rightIh.parens .pipe back isBack
    refine ⟨.pipe left' right', ?_, congrArg₂ Tree.pipe leftMaps rightMaps⟩
    rw [← leftTokens, ← rightTokens, Lexeme.map_eq_symbol isBar]
    rfl
  | list left right leftIh rightIh =>
    intro us same
    rw [Tree.tokens, List.map_append] at same
    obtain ⟨front, others, rfl, isFront, isOthers⟩ := List.map_eq_append_iff.mp same
    obtain ⟨semicolon, back, rfl, isSemicolon, isBack⟩ := List.map_eq_cons_iff.mp isOthers
    obtain ⟨left', leftTokens, leftMaps⟩ := leftIh.parens .back front isFront
    obtain ⟨right', rightTokens, rightMaps⟩ := rightIh back isBack
    refine ⟨.list left' right', ?_, congrArg₂ Tree.list leftMaps rightMaps⟩
    rw [← leftTokens, ← rightTokens, Lexeme.map_eq_symbol isSemicolon]
    rfl
  | back sub ih =>
    intro us same
    rw [Tree.tokens, List.map_append] at same
    obtain ⟨front, last, rfl, isFront, isLast⟩ := List.map_eq_append_iff.mp same
    obtain ⟨sign, none, rfl, isSign, isNone⟩ := List.map_eq_cons_iff.mp isLast
    obtain ⟨sub', tokens, maps⟩ := ih.parens .back front isFront
    refine ⟨.back sub', ?_, congrArg Tree.back maps⟩
    rw [← tokens, Lexeme.map_eq_symbol isSign, List.map_eq_nil_iff.mp isNone]
    rfl

end

/-! ## The round trip -/

theorem noNul_spaced {ls : List (Lexeme Word)} (single : Single ls) : nul ∉ spaced ls := by
  intro member
  obtain ⟨l, inLs, inText⟩ := List.mem_flatMap.mp member
  rcases List.mem_append.mp inText with inText | space
  · cases l with
    | symbol c =>
      have known := single c inLs
      rw [← List.mem_singleton.mp inText] at known
      revert known
      decide
    | word w => exact w.noNul inText
  · revert space
    decide

theorem lexemes_length_le (s : Ptr) : (lexemes s).length ≤ s.length := by
  induction s using lexemes.induct with
  | case1 s ends =>
    rw [lexemes_of_skip_nil ends]
    exact Nat.zero_le _
  | case2 s c rest found scanned ih =>
    have shorter := scanToken_length_lt found
    have bound := skip_length_le s
    rw [found] at bound
    rw [lexemes_of_skip found, List.length_cons]
    exact Nat.le_trans (Nat.lt_of_le_of_lt ih shorter) bound

theorem line_append {text : List Char} (rest : List Char) (noNul : nul ∉ text) : line (text ++ nul :: rest) = text := by
  have all : ∀ c ∈ text, decide (c ≠ nul) = true := by
    intro c member
    apply decide_eq_true
    intro isNul
    exact noNul (isNul ▸ member)
  rw [line, List.takeWhile_append_of_pos all]
  exact List.append_nil text

-- A tree whose tokens a text holds is what `parsecmd` makes of that text.
theorem parsecmd_complete {text rest : List Char} {tree : Tree Token} {fuel used : Nat} (noNul : nul ∉ text)
    (derives : Derives .line tree (lexemes text)) (room : used + tree.arena ≤ MAXN)
    (enough : 4 * text.length + 4 ≤ fuel) :
    ∃ cmd buf' scan, parsecmd fuel used (text ++ nul :: rest) = .done (cmd, some buf') scan ∧
      cmd.read text.length buf'.chars = some (tree.map Token.text) := by
  have bound := lexemes_length_le text
  have isLine := line_append rest noNul
  have whole : lexemes text = lexemes text ++ [] := (List.append_nil _).symm
  obtain ⟨scan, parsed, left, _⟩ :=
    (parse_complete fuel).1 tree (lexemes text) [] ⟨text, used⟩ derives whole nofun (by omega) room
  obtain ⟨buf', terminated, _, _, read⟩ := nulterminate_line rest noNul derives
  rw [← isLine] at parsed
  have ends : ¬skip scan.ps ≠ [] := not_not.mpr (lexemes_eq_nil.mp left)
  refine ⟨tree.cmd, buf', ⟨skip scan.ps, scan.used⟩, ?_, read⟩
  rw [parsecmd_of_done parsed, if_neg ends, isLine, terminated]

/-- Every tree is printed as a text that `parsecmd` turns into the same tree, while there is memory for it; and
on every text the parser comes to an end. -/
theorem parsecmd_print :
    (∀ (tree : Tree Word) (fuel used : Nat) (rest : List Char), tree.Fits → used + tree.arena ≤ MAXN →
      4 * (print tree).length + 4 ≤ fuel →
        ∃ cmd buf' scan, parsecmd fuel used (print tree ++ nul :: rest) = .done (cmd, some buf') scan ∧
          cmd.read (print tree).length buf'.chars = some (tree.map Word.chars)) ∧
      ∀ (buf : List Char) (fuel used : Nat), 4 * buf.length + 4 ≤ fuel → parsecmd fuel used buf ≠ .unfinished := by
  constructor
  · intro tree fuel used rest fits room enough
    have single := single_tokens tree
    obtain ⟨tree', tokens, maps⟩ := lift_tokens Word.chars Token.text tree _ (lexemes_spaced single)
    have fits' : tree'.Fits := by
      rw [← fits_map (f := Token.text), maps, fits_map]
      exact fits
    have arena : tree'.arena = tree.arena := by
      rw [← arena_map (f := Token.text), maps, arena_map]
    have derives : Derives .line tree' (lexemes (print tree)) := by
      rw [print, ← tokens]
      exact (derives_tokens tree' fits').widen (by cases tree'.level <;> rfl)
    rw [← maps]
    exact parsecmd_complete (noNul_spaced single) derives (arena ▸ room) enough
  · intro buf fuel used enough
    have short : (line buf).length ≤ buf.length := (List.takeWhile_prefix _).length_le
    have bound := lexemes_length_le (line buf)
    have fueled : 4 * (lexemes (line buf)).length + 4 ≤ fuel := by omega
    have finishes := (parse_finishes fuel).1 ⟨line buf, used⟩ fueled
    cases parsed : parseline fuel ⟨line buf, used⟩ with
    | done cmd scan =>
      rw [parsecmd_of_done parsed]
      by_cases left : skip scan.ps ≠ []
      · rw [if_pos left]
        simp
      · rw [if_neg left]
        simp
    | stop why =>
      rw [parsecmd, bind_of_stop parsed]
      simp
    | unfinished => exact absurd parsed finishes

def cat : Word := ⟨"cat".toList, by decide, List.all_eq_true.mp (by decide), by decide⟩

def wc : Word := ⟨"wc".toList, by decide, List.all_eq_true.mp (by decide), by decide⟩

def notes : Word := ⟨"notes".toList, by decide, List.all_eq_true.mp (by decide), by decide⟩

def pipeline : Tree Word := .back (.pipe (.list (.redir (.exec [cat]) notes .input) (.exec [wc, notes])) (.exec [wc]))

theorem parsecmd_print_pipeline :
    print pipeline = "( cat < notes ; wc notes ) | wc & ".toList ∧
      (∃ cmd buf' scan, parsecmd 140 0 (print pipeline ++ nul :: ['x']) = .done (cmd, some buf') scan ∧
        cmd.read (print pipeline).length buf'.chars = some (pipeline.map Word.chars)) ∧
      parsecmd 20 0 "((((".toList ≠ .unfinished := by
  obtain ⟨prints, finishes⟩ := parsecmd_print
  refine ⟨by decide, prints pipeline 140 0 ['x'] ?_ (by decide) (by decide), finishes _ 20 0 (by decide)⟩
  simp [pipeline, Tree.Fits, MAXARGS]

end Xv6.Shell
