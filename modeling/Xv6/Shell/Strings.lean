import Xv6.Shell.Parsing

/-! The strings of a tree after `nulterminate`.

Every word ends where a character that is no part of a word stands, or the line does; so the
terminators of some words are in no other word, and what is read from a pointer of the tree is
the word that the parser found there.
-/

set_option autoImplicit false

namespace Xv6.Shell

/-! ## What a tree reads like -/

section
variable {T : Type}

namespace Tree

-- The words in the order in which `nulterminate` ends them.
def marks : Tree T → List T
  | exec words => words
  | redir sub file _ => sub.marks ++ [file]
  | pipe left right => left.marks ++ right.marks
  | list left right => left.marks ++ right.marks
  | back sub => sub.marks

end Tree

/-- A tree as a line of words. The file of a redirection comes after all words of what is redirected, but for
some of the last ones of a simple command. -/
inductive Reads : Tree T → List T → Prop where
  | exec (words : List T) : Reads (.exec words) words
  | redir {sub : Tree T} {before after : List T} (inner : Reads sub (before ++ after)) (late : after <:+ sub.words)
      (file : T) (direction : Direction) : Reads (.redir sub file direction) (before ++ file :: after)
  | pipe {left right : Tree T} {ws vs : List T} (first : Reads left ws) (second : Reads right vs) :
      Reads (.pipe left right) (ws ++ vs)
  | list {left right : Tree T} {ws vs : List T} (first : Reads left ws) (second : Reads right vs) :
      Reads (.list left right) (ws ++ vs)
  | back {sub : Tree T} {ws : List T} (inner : Reads sub ws) : Reads (.back sub) ws

theorem Reads.marks {tree : Tree T} {ws : List T} (reads : Reads tree ws) : tree.marks.Perm ws := by
  induction reads with
  | exec words => exact .refl _
  | redir inner late file direction ih =>
    refine (ih.append_right [file]).trans ?_
    rw [List.append_assoc]
    exact List.Perm.append_left _ List.perm_append_comm
  | pipe first second firstIh secondIh => exact firstIh.append secondIh
  | list first second firstIh secondIh => exact firstIh.append secondIh
  | back inner ih => exact ih

end

section
variable {T : Type} {tree : Tree T} {ws : List T}

theorem Reads.push (reads : Reads tree ws) (simple : tree.Simple) (t : T) : Reads (tree.push t) (ws ++ [t]) := by
  induction reads with
  | exec words => exact .exec _
  | redir inner late file direction ih =>
    rename_i sub before after
    have more := ih simple
    rw [List.append_assoc] at more
    have words : (sub.push t).words = sub.words ++ [t] := words_push simple
    have late' : after ++ [t] <:+ (sub.push t).words := by
      obtain ⟨front, split⟩ := late
      exact ⟨front, by rw [words, ← split, List.append_assoc]⟩
    rw [List.append_assoc, List.cons_append]
    exact .redir more late' file direction
  | pipe first second firstIh secondIh => cases simple
  | list first second firstIh secondIh => cases simple
  | back inner ih => cases simple

theorem Reads.addAll (parts : List (Part T)) (reads : Reads tree ws)
    (simple : parts.filterMap Part.word? = [] ∨ tree.Simple) :
    Reads (tree.addAll parts) (ws ++ (spell parts).filterMap Lexeme.word?) := by
  induction parts generalizing tree ws with
  | nil =>
    change Reads tree (ws ++ [])
    rw [List.append_nil]
    exact reads
  | cons part parts ih =>
    cases part with
    | word t =>
      have simple : tree.Simple := simple.resolve_left (by nofun)
      have more := ih (reads.push simple t) (.inr (simple_push simple))
      rw [List.append_assoc] at more
      exact more
    | redirect how file =>
      have none : ws ++ [] = ws := List.append_nil ws
      have here : Reads (tree.add (.redirect how file)) (ws ++ [file]) :=
        .redir (none.symm ▸ reads) (List.nil_suffix) file how.direction
      have more := ih here simple
      rw [List.append_assoc] at more
      exact more

theorem Derives.reads {level : Level} {ts : List (Lexeme T)} (derives : Derives level tree ts) :
    Reads tree (ts.filterMap Lexeme.word?) := by
  induction derives with
  | simple parts room => exact (Reads.exec []).addAll parts (.inr trivial)
  | block inner redirects only ih =>
    have more := ih.addAll redirects (.inl only)
    rw [List.cons_append, List.filterMap_cons, List.filterMap_append, List.filterMap_cons]
    exact more
  | exec inner ih => exact ih
  | pipe first second firstIh secondIh =>
    rw [List.filterMap_append, List.filterMap_cons]
    exact .pipe firstIh secondIh
  | front inner ih => exact ih
  | back inner ih =>
    rw [List.filterMap_append]
    exact .back ((List.append_nil _).symm ▸ ih)
  | last inner ih => exact ih
  | list first second firstIh secondIh =>
    rw [List.filterMap_append, List.filterMap_cons]
    exact .list firstIh secondIh

theorem fits_of_simple (simple : tree.Simple) (room : tree.words.length < MAXARGS) : tree.Fits := by
  induction tree with
  | exec words => exact room
  | redir sub file direction ih => exact ih simple room
  | pipe left right => cases simple
  | list left right => cases simple
  | back sub => cases simple

theorem fits_redirects {redirects : List (Part T)} (only : redirects.filterMap Part.word? = []) (fits : tree.Fits) :
    (tree.addAll redirects).Fits := by
  induction redirects generalizing tree with
  | nil => exact fits
  | cons part parts ih =>
    cases part with
    | word t => cases only
    | redirect how file =>
      have here : (tree.add (.redirect how file)).Fits := fits
      exact ih only here

theorem Derives.fits {level : Level} {ts : List (Lexeme T)} (derives : Derives level tree ts) : tree.Fits := by
  induction derives with
  | simple parts room =>
    have simple : (Tree.exec ([] : List T)).Simple := trivial
    apply fits_of_simple (simple_addAll simple)
    rw [words_addAll parts simple]
    exact room
  | block inner redirects only ih => exact fits_redirects only ih
  | exec inner ih => exact ih
  | pipe first second firstIh secondIh => exact ⟨firstIh, secondIh⟩
  | front inner ih => exact ih
  | back inner ih => exact ih
  | last inner ih => exact ih
  | list first second firstIh secondIh => exact ⟨firstIh, secondIh⟩

end

/-! ## Terminators -/

def Token.stop (es : Nat) (t : Token) : Nat := es - t.eq.length

def terminateAll (es : Nat) (tokens : List Token) (buf : Buffer) : Option Buffer :=
  tokens.foldlM (fun buf t => buf.terminate (t.stop es)) buf

theorem terminateArgs_eq (es : Nat) (words : List Token) (argv eargv : List (Option Ptr)) (buf : Buffer) :
    terminateArgs es (words.map (fun t => some t.q) ++ none :: argv) (words.map (fun t => some t.eq) ++ eargv) buf =
      terminateAll es words buf := by
  induction words generalizing buf with
  | nil =>
    cases eargv with
    | nil => rfl
    | cons stop eargv => rfl
  | cons t words ih =>
    simp only [List.map_cons, List.cons_append, terminateArgs, terminateAll, List.foldlM_cons]
    congr 1
    funext buf
    exact ih buf

theorem nulterminate_eq (es : Nat) {tree : Tree Token} (fits : tree.Fits) (buf : Buffer) :
    nulterminate es tree.cmd buf = terminateAll es tree.marks buf := by
  induction tree generalizing buf with
  | exec words =>
    rw [Tree.cmd, nulterminate, slots_eq (·.q) fits, slots_eq (·.eq) fits]
    exact terminateArgs_eq es words _ _ buf
  | redir sub file direction ih =>
    rw [Tree.cmd, nulterminate, ih fits, Tree.marks, terminateAll, terminateAll, List.foldlM_append]
    congr 1
    funext buf
    rw [List.foldlM_cons]
    exact (bind_pure (buf.terminate (file.stop es))).symm
  | pipe left right leftIh rightIh =>
    rw [Tree.cmd, nulterminate, leftIh fits.1, Tree.marks, terminateAll, terminateAll, List.foldlM_append]
    congr 1
    funext buf
    exact rightIh fits.2 buf
  | list left right leftIh rightIh =>
    rw [Tree.cmd, nulterminate, leftIh fits.1, Tree.marks, terminateAll, terminateAll, List.foldlM_append]
    congr 1
    funext buf
    exact rightIh fits.2 buf
  | back sub ih => exact ih fits buf

/-- What some terminators make of an array: they are there, and the rest is as it was. -/
structure Terminated (es : Nat) (tokens : List Token) (buf buf' : Buffer) : Prop where
  writes : buf'.writes = buf.writes ++ tokens.map (·.stop es)
  length : buf'.chars.length = buf.chars.length
  here : ∀ t ∈ tokens, buf'.chars[t.stop es]? = some nul
  elsewhere : ∀ i, i ∉ tokens.map (·.stop es) → buf'.chars[i]? = buf.chars[i]?

theorem terminateAll_inside {es : Nat} {tokens : List Token} (buf : Buffer)
    (inside : ∀ t ∈ tokens, t.stop es < buf.chars.length) :
    ∃ buf', terminateAll es tokens buf = some buf' ∧ Terminated es tokens buf buf' := by
  induction tokens generalizing buf with
  | nil => exact ⟨buf, rfl, (List.append_nil _).symm, rfl, nofun, fun _ _ => rfl⟩
  | cons t tokens ih =>
    have first := inside t List.mem_cons_self
    have wrote : buf.terminate (t.stop es) = some ⟨buf.chars.set (t.stop es) nul, buf.writes ++ [t.stop es]⟩ :=
      if_pos first
    generalize isNext : (⟨buf.chars.set (t.stop es) nul, buf.writes ++ [t.stop es]⟩ : Buffer) = next at wrote
    have later : ∀ t' ∈ tokens, t'.stop es < next.chars.length := by
      intro t' member
      rw [← isNext, List.length_set]
      exact inside t' (.tail t member)
    obtain ⟨buf', ended, rest⟩ := ih next later
    subst isNext
    refine ⟨buf', ?_, ?_, ?_, ?_, ?_⟩
    · rw [terminateAll, List.foldlM_cons, wrote]
      exact ended
    · rw [rest.writes, List.append_assoc]
      rfl
    · rw [rest.length, List.length_set]
    · intro t' member
      by_cases again : t'.stop es ∈ tokens.map (·.stop es)
      · obtain ⟨other, inTokens, same⟩ := List.mem_map.mp again
        rw [← same]
        exact rest.here other inTokens
      · rcases List.mem_cons.mp member with same | member
        · rw [same] at again ⊢
          rw [rest.elsewhere _ again, List.getElem?_set_self first]
        · exact absurd (List.mem_map_of_mem member) again
    · intro i apart
      rw [List.map_cons, List.mem_cons, not_or] at apart
      rw [rest.elsewhere i apart.2, List.getElem?_set_ne (Ne.symm apart.1)]

/-! ## Reading strings -/

def readString (es : Nat) (chars : List Char) (p : Ptr) : List Char :=
  (chars.drop (es - p.length)).takeWhile fun c => c ≠ nul

def readArgs (es : Nat) (chars : List Char) : List (Option Ptr) → Option (List (List Char))
  | some q :: argv => (readArgs es chars argv).map (readString es chars q :: ·)
  | none :: _ => some []
  | [] => none

def Direction.find (mode : UInt64) (fd : Int) : Option Direction :=
  [input, output].find? fun direction => direction.mode = mode ∧ direction.fd = fd

/-- The tree of strings that `runcmd` finds. -/
def Cmd.read (es : Nat) (chars : List Char) : Cmd → Option (Tree (List Char))
  | exec argv _ => (readArgs es chars argv).map .exec
  | redir cmd file _ mode fd => do
    let sub ← cmd.read es chars
    let direction ← Direction.find mode fd
    return .redir sub (readString es chars file) direction
  | pipe left right => do return .pipe (← left.read es chars) (← right.read es chars)
  | list left right => do return .list (← left.read es chars) (← right.read es chars)
  | back cmd => (cmd.read es chars).map .back

def Cmd.argvs : Cmd → List (List (Option Ptr))
  | exec argv _ => [argv]
  | redir cmd _ _ _ _ => cmd.argvs
  | pipe left right => left.argvs ++ right.argvs
  | list left right => left.argvs ++ right.argvs
  | back cmd => cmd.argvs

theorem readArgs_eq {es : Nat} {chars : List Char} {words : List Token} (argv : List (Option Ptr))
    (strings : ∀ t ∈ words, readString es chars t.q = t.text) :
    readArgs es chars (words.map (fun t => some t.q) ++ none :: argv) = some (words.map Token.text) := by
  induction words with
  | nil => rfl
  | cons t words ih =>
    rw [List.map_cons, List.cons_append, readArgs, ih (fun t' member => strings t' (.tail t member)),
      strings t List.mem_cons_self]
    rfl

theorem Direction.find_eq (direction : Direction) : Direction.find direction.mode direction.fd = some direction := by
  cases direction with
  | input => rfl
  | output => rfl

theorem read_eq {es : Nat} {chars : List Char} {tree : Tree Token} (fits : tree.Fits)
    (strings : ∀ t ∈ tree.marks, readString es chars t.q = t.text) :
    tree.cmd.read es chars = some (tree.map Token.text) := by
  induction tree with
  | exec words =>
    have inner : ∀ t ∈ words, readString es chars t.q = t.text := strings
    rw [Tree.cmd, Cmd.read, slots_eq (·.q) fits, readArgs_eq _ inner]
    rfl
  | redir sub file direction ih =>
    have inner := ih fits (fun t member => strings t (List.mem_append_left _ member))
    have last := strings file (List.mem_append_right _ List.mem_cons_self)
    rw [Tree.cmd, Cmd.read, inner, direction.find_eq, last]
    rfl
  | pipe left right leftIh rightIh =>
    rw [Tree.cmd, Cmd.read, leftIh fits.1 (fun t member => strings t (List.mem_append_left _ member)),
      rightIh fits.2 (fun t member => strings t (List.mem_append_right _ member))]
    rfl
  | list left right leftIh rightIh =>
    rw [Tree.cmd, Cmd.read, leftIh fits.1 (fun t member => strings t (List.mem_append_left _ member)),
      rightIh fits.2 (fun t member => strings t (List.mem_append_right _ member))]
    rfl
  | back sub ih =>
    rw [Tree.cmd, Cmd.read, ih fits strings]
    rfl

theorem argvs_eq {tree : Tree Token} (fits : tree.Fits) :
    ∀ argv ∈ tree.cmd.argvs, ∃ words : List Ptr, words.length ≤ MAXARGS - 1 ∧
      argv = words.map some ++ List.replicate (MAXARGS - words.length) none := by
  induction tree with
  | exec words =>
    intro argv member
    refine ⟨words.map (·.q), ?_, ?_⟩
    · rw [List.length_map]
      exact Nat.le_sub_one_of_lt fits
    · rw [List.mem_singleton.mp member, List.length_map, List.map_map]
      rfl
  | redir sub file direction ih => exact ih fits
  | pipe left right leftIh rightIh => exact List.forall_mem_append.mpr ⟨leftIh fits.1, rightIh fits.2⟩
  | list left right leftIh rightIh => exact List.forall_mem_append.mpr ⟨leftIh fits.1, rightIh fits.2⟩
  | back sub ih => exact ih fits

/-! ## Words of the line in the array -/

section
variable {text : Ptr} {more : List Char} {t : Token}

theorem Token.Within.place (within : t.Within text) :
    ∃ before, text = before ++ (t.text ++ t.eq) ∧ text.length - t.q.length = before.length ∧
      t.stop text.length = before.length + t.text.length := by
  obtain ⟨before, split⟩ := within.suffix
  have length := congrArg List.length split
  have inner := congrArg List.length within.split
  rw [List.length_append] at length inner
  refine ⟨before, by rw [← within.split, split], by omega, ?_⟩
  rw [Token.stop]
  omega

/-- A terminator stands at the end of the line, or on a character that is in no word. -/
theorem Token.Within.stop_apart (within : t.Within text) :
    t.stop text.length ≤ text.length ∧ ∀ c ∈ text[t.stop text.length]?, Shell.plain c = false := by
  obtain ⟨before, split, _, stops⟩ := within.place
  refine ⟨Nat.sub_le _ _, ?_⟩
  intro c found
  apply within.ends c
  have start : text[before.length + t.text.length]? = t.eq[0]? := by
    conv_lhs => rw [split]
    rw [← List.append_assoc, ← List.length_append, List.getElem?_append_right (Nat.le_refl _), Nat.sub_self]
  rw [stops, start] at found
  rw [List.head?_eq_getElem?]
  exact found

theorem takeWhile_of_getElem? {chars word : List Char} (noNul : nul ∉ word)
    (here : ∀ i < word.length, chars[i]? = word[i]?) (stop : chars[word.length]? = some nul) :
    chars.takeWhile (fun c => c ≠ nul) = word := by
  induction word generalizing chars with
  | nil =>
    cases chars with
    | nil => cases stop
    | cons c chars =>
      have isNul : c = nul := Option.some.inj stop
      rw [isNul]
      rfl
  | cons d word ih =>
    cases chars with
    | nil => cases stop
    | cons c chars =>
      have same : c = d := Option.some.inj (here 0 (Nat.succ_pos _))
      subst same
      have other : c ≠ nul := fun isNul => noNul (isNul ▸ List.mem_cons_self)
      have tail : chars.takeWhile (fun c => c ≠ nul) = word :=
        ih (fun member => noNul (.tail c member)) (fun i bound => here (i + 1) (Nat.succ_lt_succ bound)) stop
      rw [List.takeWhile_cons_of_pos (by simpa using other), tail]

theorem readString_eq {tokens : List Token} {buf buf' : Buffer} (noNul : nul ∉ text)
    (array : buf.chars = text ++ nul :: more) (terminated : Terminated text.length tokens buf buf')
    (all : ∀ t ∈ tokens, t.Within text) (member : t ∈ tokens) :
    readString text.length buf'.chars t.q = t.text := by
  have within := all t member
  obtain ⟨before, split, starts, stops⟩ := within.place
  have inside : before.length + t.text.length ≤ text.length := by
    have length := congrArg List.length split
    rw [List.length_append, List.length_append] at length
    omega
  rw [readString, starts]
  apply takeWhile_of_getElem?
  · intro isNul
    apply noNul
    rw [split]
    exact List.mem_append_right _ (List.mem_append_left _ isNul)
  · intro i bound
    have inLine : text[before.length + i]? = t.text[i]? := by
      conv_lhs => rw [split]
      rw [List.getElem?_append_right (Nat.le_add_right _ _), Nat.add_sub_cancel_left, List.getElem?_append_left bound]
    -- a plain character is at no place where a word is terminated
    have apart : before.length + i ∉ tokens.map (·.stop text.length) := by
      intro stop
      obtain ⟨other, inTokens, same⟩ := List.mem_map.mp stop
      have ends := (all other inTokens).stop_apart.2 t.text[i]
      rw [same, inLine, List.getElem?_eq_getElem bound] at ends
      have isPlain := within.plain t.text[i] (List.getElem_mem bound)
      rw [ends rfl] at isPlain
      cases isPlain
    rw [List.getElem?_drop, terminated.elsewhere _ apart, array, List.getElem?_append_left (by omega), inLine]
  · rw [List.getElem?_drop, ← stops]
    exact terminated.here t member

end

theorem line_eq {buf : List Char} (ended : nul ∈ buf) : nul ∉ line buf ∧ ∃ more, buf = line buf ++ nul :: more := by
  constructor
  · intro member
    have other := List.mem_takeWhile_imp member
    simp at other
  · have split := List.takeWhile_append_dropWhile (p := fun c => decide (c ≠ nul)) (l := buf)
    cases rest : buf.dropWhile fun c => decide (c ≠ nul) with
    | nil =>
      have all := List.dropWhile_eq_nil_iff.mp rest nul ended
      simp at all
    | cons c more =>
      have first := List.head?_dropWhile_not (fun c => decide (c ≠ nul)) buf
      rw [rest] at first
      have isNul : c = nul := by simpa using first
      rw [rest, isNul] at split
      exact ⟨more, split.symm⟩

/-! ## The whole command line -/

theorem parsecmd_of_done {fuel used : Nat} {buf : List Char} {cmd : Cmd} {scan : Scan}
    (parsed : parseline fuel ⟨line buf, used⟩ = .done cmd scan) :
    parsecmd fuel used buf =
      if skip scan.ps ≠ [] then .stop (.leftovers (skip scan.ps))
      else .done (cmd, nulterminate (line buf).length cmd ⟨buf, []⟩) ⟨skip scan.ps, scan.used⟩ := by
  rw [parsecmd, bind_of_done parsed]
  change (if skip scan.ps ≠ [] then Parse.stop (.leftovers (skip scan.ps)) else pure _ : Parse _) _ = _
  by_cases left : skip scan.ps ≠ []
  · rw [if_pos left, if_pos left]
    rfl
  · rw [if_neg left, if_neg left]
    rfl

theorem lexemes_eq_nil {s : Ptr} : lexemes s = [] ↔ skip s = [] := by
  constructor
  · intro none
    cases found : skip s with
    | nil => rfl
    | cons c rest =>
      rw [lexemes_of_skip found] at none
      cases none
  · exact lexemes_of_skip_nil

theorem nulterminate_line {text : Ptr} (more : List Char) {tree : Tree Token} (noNul : nul ∉ text)
    (derives : Derives .line tree (lexemes text)) :
    ∃ buf', nulterminate text.length tree.cmd ⟨text ++ nul :: more, []⟩ = some buf' ∧
      buf'.writes = tree.marks.map (·.stop text.length) ∧ (∀ t ∈ tree.marks, t.Within text) ∧
      tree.cmd.read text.length buf'.chars = some (tree.map Token.text) := by
  have within : ∀ t ∈ tree.marks, t.Within text := by
    intro t member
    exact within_lexemes text (List.suffix_refl text) t (derives.reads.marks.mem_iff.mp member)
  have inside : ∀ t ∈ tree.marks, t.stop text.length < (text ++ nul :: more).length := by
    intro t member
    have bound := (within t member).stop_apart.1
    rw [List.length_append, List.length_cons]
    omega
  obtain ⟨buf', ended, terminated⟩ := terminateAll_inside ⟨text ++ nul :: more, []⟩ inside
  refine ⟨buf', (nulterminate_eq _ derives.fits _).trans ended, terminated.writes, within, ?_⟩
  exact read_eq derives.fits fun t member => readString_eq noNul rfl terminated within member

theorem Reads.map {T U : Type} {tree : Tree T} {ws : List T} (reads : Reads tree ws) (f : T → U) :
    Reads (tree.map f) (ws.map f) := by
  have words : ∀ tree : Tree T, (tree.map f).words = tree.words.map f := by
    intro tree
    induction tree with
    | exec words => rfl
    | redir sub file direction ih => exact ih
    | pipe left right => rfl
    | list left right => rfl
    | back sub => rfl
  induction reads with
  | exec words => exact .exec _
  | redir inner late file direction ih =>
    rw [List.map_append] at ih
    rw [List.map_append, List.map_cons]
    exact .redir ih (by rw [words]; exact late.map f) _ direction
  | pipe first second firstIh secondIh =>
    rw [List.map_append]
    exact .pipe firstIh secondIh
  | list first second firstIh secondIh =>
    rw [List.map_append]
    exact .list firstIh secondIh
  | back inner ih => exact .back ih

/-- Of every line that is accepted the tree holds the words, in order, each a string of its own. The terminators
stay in the array and out of the words, and every `argv` ends with a null pointer. -/
theorem accepted_strings {fuel used : Nat} {buf : List Char} {cmd : Cmd} {result : Option Buffer} {scan : Scan}
    (ended : nul ∈ buf) (accepted : parsecmd fuel used buf = .done (cmd, result) scan) :
    ∃ buf' tree, result = some buf' ∧ cmd.read (line buf).length buf'.chars = some tree ∧
      Reads tree (words (line buf)) ∧
      (∀ place ∈ buf'.writes, place ≤ (line buf).length ∧ ∀ c ∈ (line buf)[place]?, plain c = false) ∧
      ∀ argv ∈ cmd.argvs, ∃ args : List Ptr, args.length ≤ MAXARGS - 1 ∧
        argv = args.map some ++ List.replicate (MAXARGS - args.length) none := by
  obtain ⟨noNul, more, array⟩ := line_eq ended
  cases parsed : parseline fuel ⟨line buf, used⟩ with
  | done made mid =>
    rw [parsecmd_of_done parsed] at accepted
    by_cases left : skip mid.ps ≠ []
    · rw [if_pos left] at accepted
      cases accepted
    · rw [if_neg left] at accepted
      cases accepted
      obtain ⟨tree, ts, rfl, derives, split⟩ := (parse_sound fuel).1 _ _ _ parsed
      have all : lexemes (line buf) = ts := by
        rw [split, lexemes_eq_nil.mpr (not_not.mp left), List.append_nil]
      rw [← all] at derives
      obtain ⟨buf', terminated, writes, within, read⟩ := nulterminate_line more noNul derives
      have reads := derives.reads.map Token.text
      rw [words_lexemes] at reads
      refine ⟨buf', _, ?_, read, reads, ?_, argvs_eq derives.fits⟩
      · rw [← terminated, ← array]
      · intro place member
        rw [writes] at member
        obtain ⟨t, isMark, stops⟩ := List.mem_map.mp member
        rw [← stops]
        exact (within t isMark).stop_apart
  | stop why =>
    rw [parsecmd, bind_of_stop parsed] at accepted
    cases accepted
  | unfinished =>
    rw [parsecmd, bind_apply, parsed] at accepted
    cases accepted

def Outcome.isDone {A : Type} : Outcome A → Bool
  | done _ _ => true
  | stop _ | unfinished => false

theorem Outcome.done_of_isDone {A : Type} {outcome : Outcome A} (isDone : outcome.isDone = true) :
    ∃ value scan, outcome = .done value scan := by
  cases outcome with
  | done value scan => exact ⟨value, scan, rfl⟩
  | stop why => cases isDone
  | unfinished => cases isDone

theorem accepted_strings_touching :
    ∃ cmd buf' scan tree, parsecmd 20 0 ['a', '<', 'b', '|', 'c', nul] = .done (cmd, some buf') scan ∧
      cmd.read 5 buf'.chars = some tree ∧ Reads tree [['a'], ['b'], ['c']] := by
  have isDone : (parsecmd 20 0 ['a', '<', 'b', '|', 'c', nul]).isDone = true := by decide +kernel
  obtain ⟨⟨cmd, result⟩, scan, accepted⟩ := Outcome.done_of_isDone isDone
  obtain ⟨buf', tree, isResult, read, reads, _⟩ := accepted_strings (by decide) accepted
  exact ⟨cmd, buf', scan, tree, isResult ▸ accepted, read, reads⟩

end Xv6.Shell
