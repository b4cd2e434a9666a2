import Xv6.Shell.Commands

/-! The parser and the grammar: what is accepted is derived, the parser comes to an end, and what
is derived is accepted.

Each of the three is an induction on the fuel, with one lemma for each function.
-/

set_option autoImplicit false

namespace Xv6.Shell

/-! ## A symbol that may be there -/

section
variable {A : Type} {c : Char} {scan : Scan} {ts : List (Lexeme Token)}

theorem starts_single {l : Lexeme Token} (known : c ∈ symbols) (single : c ≠ '>') :
    l.starts [c] = true ↔ l = .symbol c := by
  constructor
  · intro starts
    cases l with
    | symbol d =>
      simp only [Lexeme.starts, List.contains_iff_mem, List.mem_singleton] at starts
      by_cases append : d = '+'
      · rw [if_pos append] at starts
        exact absurd starts.symm single
      · rw [if_neg append] at starts
        exact congrArg _ starts
    | word t => cases starts
  · intro same
    have other : c ≠ '+' := by
      intro isPlus
      subst isPlus
      revert known
      decide
    rw [same, Lexeme.starts, if_neg other]
    simp

theorem symbol_taken (known : c ∈ symbols) (single : c ≠ '>') (tokens : lexemes scan.ps = .symbol c :: ts)
    (p q : Parse A) :
    ∃ mid, lexemes mid.ps = ts ∧ mid.used = scan.used ∧
      (do if ← peek [c] then (do let _ ← gettoken; p) else q) scan = p mid := by
  have peeked := peek_head [c] tokens (by simpa using known)
  rw [(starts_single known single).mpr rfl] at peeked
  obtain ⟨s, atPeek, sTokens, sUsed⟩ := peeked.step
  obtain ⟨t, got⟩ := (gettoken_symbol sTokens).2
  obtain ⟨mid, atSymbol, midTokens, midUsed⟩ := got.step
  exact ⟨mid, midTokens, midUsed.trans sUsed, (atPeek _).trans (atSymbol _)⟩

theorem symbol_absent (peeked : Yields (peek [c]) false scan ts scan.used) (p q : Parse A) :
    ∃ mid, lexemes mid.ps = ts ∧ mid.used = scan.used ∧
      (do if ← peek [c] then (do let _ ← gettoken; p) else q) scan = q mid := by
  obtain ⟨mid, atPeek, tokens, used⟩ := peeked.step
  exact ⟨mid, tokens, used, atPeek _⟩

theorem symbol_cases (known : c ∈ symbols) (single : c ≠ '>') (scan : Scan) (p q : Parse A) :
    (∃ mid, lexemes scan.ps = .symbol c :: lexemes mid.ps ∧ mid.used = scan.used ∧
      (do if ← peek [c] then (do let _ ← gettoken; p) else q) scan = p mid) ∨
    ∃ mid, lexemes mid.ps = lexemes scan.ps ∧ mid.used = scan.used ∧
      (do if ← peek [c] then (do let _ ← gettoken; p) else q) scan = q mid := by
  have peeked := peek_yields [c] (by simpa using known) scan
  cases starts : (lexemes scan.ps).head?.any fun l => l.starts [c] with
  | false =>
    rw [starts] at peeked
    exact .inr (symbol_absent peeked p q)
  | true =>
    refine .inl ?_
    cases tokens : lexemes scan.ps with
    | nil =>
      rw [tokens] at starts
      cases starts
    | cons l ts =>
      rw [tokens] at starts
      have same : l = .symbol c := (starts_single known single).mp starts
      rw [same] at tokens ⊢
      obtain ⟨mid, left, used, taken⟩ := symbol_taken known single tokens p q
      exact ⟨mid, by rw [left], used, taken⟩

end

/-! ## What is accepted is derived -/

/-- Whatever the parser makes of a text is derived from the tokens that it took. -/
def Sound (level : Level) (p : Parse Cmd) : Prop :=
  ∀ scan cmd scan', p scan = .done cmd scan' →
    ∃ tree ts, cmd = tree.cmd ∧ Derives level tree ts ∧ lexemes scan.ps = ts ++ lexemes scan'.ps

theorem parseback_sound {fuel : Nat} {tree : Tree Token} {ts : List (Lexeme Token)} {cmd : Cmd} {scan scan' : Scan}
    (derives : Derives .back tree ts) (done : parseback fuel tree.cmd scan = .done cmd scan') :
    ∃ tree' us, cmd = tree'.cmd ∧ Derives .back tree' (ts ++ us) ∧ lexemes scan.ps = us ++ lexemes scan'.ps := by
  induction fuel generalizing tree ts scan with
  | zero => cases done
  | succ fuel ih =>
    rw [parseback] at done
    rcases symbol_cases (c := '&') (by decide) (by decide) scan (do let cmd ← backcmd tree.cmd; parseback fuel cmd)
      (pure tree.cmd) with ⟨mid, tokens, _, turn⟩ | ⟨mid, tokens, _, turn⟩
    · rw [turn] at done
      obtain ⟨node, s, made, done⟩ := bind_eq_done.mp done
      obtain ⟨isNode, left⟩ := alloc_done made
      rw [isNode] at done
      obtain ⟨tree', us, isCmd, derives', split⟩ := ih derives.back done
      rw [List.append_assoc] at derives'
      refine ⟨tree', amp :: us, isCmd, derives', ?_⟩
      rw [tokens, ← left, split]
      rfl
    · cases turn.symm.trans done
      exact ⟨tree, [], rfl, by rw [List.append_nil]; exact derives, tokens.symm⟩

section
variable {fuel : Nat}

theorem parseline_sound (pipe : Sound .pipe (parsepipe fuel)) (line : Sound .line (parseline fuel)) :
    Sound .line (parseline (fuel + 1)) := by
  intro scan cmd scan' done
  rw [parseline] at done
  obtain ⟨first, s, piped, done⟩ := bind_eq_done.mp done
  obtain ⟨tree, ts, isTree, derives, split⟩ := pipe _ _ _ piped
  obtain ⟨left, s', backed, done⟩ := bind_eq_done.mp done
  rw [isTree] at backed
  obtain ⟨tree, us, isLeft, derives, split'⟩ := parseback_sound derives.front backed
  rw [split', ← List.append_assoc] at split
  rcases symbol_cases (c := ';') (by decide) (by decide) s' (do let rest ← parseline fuel; listcmd left rest)
    (pure left) with ⟨mid, tokens, _, turn⟩ | ⟨mid, tokens, _, turn⟩
  · rw [turn] at done
    obtain ⟨right, s'', lined, made⟩ := bind_eq_done.mp done
    obtain ⟨isNode, kept⟩ := alloc_done made
    obtain ⟨tree', vs, isRight, derives', split''⟩ := line _ _ _ lined
    refine ⟨.list tree tree', _, by rw [isNode, isLeft, isRight]; rfl, .list derives derives', ?_⟩
    rw [split, tokens, split'', kept, List.append_assoc (ts ++ us)]
    rfl
  · cases turn.symm.trans done
    exact ⟨tree, _, isLeft, .last derives, split.trans (congrArg _ tokens.symm)⟩

theorem parsepipe_sound (exec : Sound .exec (parseexec fuel)) (pipe : Sound .pipe (parsepipe fuel)) :
    Sound .pipe (parsepipe (fuel + 1)) := by
  intro scan cmd scan' done
  rw [parsepipe] at done
  obtain ⟨left, s, parsed, done⟩ := bind_eq_done.mp done
  obtain ⟨tree, ts, isLeft, derives, split⟩ := exec _ _ _ parsed
  rcases symbol_cases (c := '|') (by decide) (by decide) s (do let right ← parsepipe fuel; pipecmd left right)
    (pure left) with ⟨mid, tokens, _, turn⟩ | ⟨mid, tokens, _, turn⟩
  · rw [turn] at done
    obtain ⟨right, s', piped, made⟩ := bind_eq_done.mp done
    obtain ⟨isNode, kept⟩ := alloc_done made
    obtain ⟨tree', us, isRight, derives', split'⟩ := pipe _ _ _ piped
    refine ⟨.pipe tree tree', _, by rw [isNode, isLeft, isRight]; rfl, .pipe derives derives', ?_⟩
    rw [split, tokens, split', kept, List.append_assoc]
    rfl
  · cases turn.symm.trans done
    exact ⟨tree, ts, isLeft, .exec derives, split.trans (congrArg _ tokens.symm)⟩

theorem execcmd_eq : execcmd = (do malloc1 execSize; return (Tree.exec []).cmd) := rfl

theorem words_redirects {redirects : List (Part Token)} (only : redirects.filterMap Part.word? = []) :
    ((Tree.exec []).addAll redirects).words = [] := by
  have simple : (Tree.exec ([] : List Token)).Simple := trivial
  rw [words_addAll redirects simple, only]
  rfl

theorem parseexec_sound (block : Sound .exec (parseblock fuel)) : Sound .exec (parseexec (fuel + 1)) := by
  intro scan cmd scan' done
  rw [parseexec] at done
  obtain ⟨bracket, s, peeked, done⟩ := bind_eq_done.mp done
  have left : lexemes s.ps = lexemes scan.ps := by
    obtain ⟨s', looks, tokens, _⟩ := peek_yields ['('] (by decide) scan
    cases looks.symm.trans peeked
    exact tokens
  cases bracket with
  | true =>
    obtain ⟨tree, ts, isCmd, derives, split⟩ := block _ _ _ done
    exact ⟨tree, ts, isCmd, derives, left.symm.trans split⟩
  | false =>
    obtain ⟨node, s', made, done⟩ := bind_eq_done.mp done
    rw [execcmd_eq] at made
    obtain ⟨isNode, kept⟩ := alloc_done made
    obtain ⟨ret, s'', redirected, done⟩ := bind_eq_done.mp done
    rw [isNode] at redirected
    obtain ⟨redirects, only, isRet, split⟩ := parseredirs_sound redirected
    have none := words_redirects only
    have simple : ((Tree.exec []).addAll redirects).Simple := simple_addAll trivial
    have args : parseargs fuel ((Tree.exec []).addAll redirects).words.length
        ((Tree.exec []).addAll redirects).cmd s'' = .done cmd scan' := by
      rw [none, ← isRet]
      exact done
    obtain ⟨parts, isCmd, split', few⟩ := parseargs_sound simple (by rw [none]; decide) args
    rw [← addAll_append] at isCmd few
    have count : ((redirects ++ parts).filterMap Part.word?).length < MAXARGS := by
      have whole := words_addAll (redirects ++ parts) (show (Tree.exec ([] : List Token)).Simple from trivial)
      rw [whole] at few
      exact few
    refine ⟨_, _, isCmd, .simple (redirects ++ parts) count, ?_⟩
    rw [← left, ← kept, split, split', spell_append, List.append_assoc]

theorem parseblock_sound (line : Sound .line (parseline fuel)) : Sound .exec (parseblock (fuel + 1)) := by
  intro scan cmd scan' done
  rw [parseblock] at done
  rcases symbol_cases (c := '(') (by decide) (by decide) scan _ _ with ⟨mid, tokens, _, turn⟩ | ⟨mid, tokens, _, turn⟩
  · rw [turn] at done
    obtain ⟨inner, s, lined, done⟩ := bind_eq_done.mp done
    obtain ⟨tree, ts, isInner, derives, split⟩ := line _ _ _ lined
    rcases symbol_cases (c := ')') (by decide) (by decide) s _ _ with
      ⟨mid', tokens', _, turn'⟩ | ⟨mid', tokens', _, turn'⟩
    · rw [turn', isInner] at done
      obtain ⟨redirects, only, isCmd, split'⟩ := parseredirs_sound done
      refine ⟨_, _, isCmd, .block derives redirects only, ?_⟩
      rw [tokens, split, tokens', split', List.append_assoc]
      rfl
    · cases turn'.symm.trans done
  · cases turn.symm.trans done

end

theorem parse_sound (fuel : Nat) :
    Sound .line (parseline fuel) ∧ Sound .pipe (parsepipe fuel) ∧ Sound .exec (parseexec fuel) ∧
      Sound .exec (parseblock fuel) := by
  induction fuel with
  | zero => exact ⟨nofun, nofun, nofun, nofun⟩
  | succ fuel ih =>
    obtain ⟨line, pipe, exec, block⟩ := ih
    exact ⟨parseline_sound pipe line, parsepipe_sound exec pipe, parseexec_sound block, parseblock_sound line⟩

/-! ## The parser comes to an end -/

def Finishes (more : Nat) (fuel : Nat) (p : Parse Cmd) : Prop :=
  ∀ scan, 4 * (lexemes scan.ps).length + more ≤ fuel → p scan ≠ .unfinished

theorem alloc_finishes (sz : Nat) (node : Cmd) (scan : Scan) :
    (do malloc1 sz; return node : Parse Cmd) scan ≠ .unfinished := by
  rcases alloc_cases sz node scan with ⟨s, made, _⟩ | stops
  · rw [made]
    nofun
  · rw [stops]
    nofun

theorem parseback_finishes {fuel : Nat} {cmd : Cmd} {scan : Scan} (enough : (lexemes scan.ps).length < fuel) :
    parseback fuel cmd scan ≠ .unfinished := by
  induction fuel generalizing cmd scan with
  | zero => exact absurd enough (Nat.not_lt_zero _)
  | succ fuel ih =>
    rw [parseback]
    rcases symbol_cases (c := '&') (by decide) (by decide) scan (do let cmd ← backcmd cmd; parseback fuel cmd)
      (pure cmd) with ⟨mid, tokens, _, turn⟩ | ⟨mid, tokens, _, turn⟩
    · rw [turn]
      apply bind_ne_unfinished (alloc_finishes _ _ _)
      intro node s made
      have kept := (alloc_done made).2
      apply ih
      rw [tokens, List.length_cons] at enough
      rw [kept]
      exact Nat.lt_of_succ_lt_succ enough
    · rw [turn]
      nofun

section
variable {fuel : Nat}

theorem parseline_finishes (pipe : Finishes 3 fuel (parsepipe fuel)) (line : Finishes 4 fuel (parseline fuel)) :
    Finishes 4 (fuel + 1) (parseline (fuel + 1)) := by
  intro scan enough
  rw [parseline]
  apply bind_ne_unfinished (pipe scan (by omega))
  intro first s piped
  obtain ⟨tree, ts, isTree, derives, split⟩ := (parse_sound fuel).2.1 _ _ _ piped
  rw [split, List.length_append] at enough
  apply bind_ne_unfinished (parseback_finishes (by omega))
  intro left s' backed
  rw [isTree] at backed
  obtain ⟨tree', us, isLeft, derives', split'⟩ := parseback_sound derives.front backed
  rw [split', List.length_append] at enough
  rcases symbol_cases (c := ';') (by decide) (by decide) s' (do let rest ← parseline fuel; listcmd left rest)
    (pure left) with ⟨mid, tokens, _, turn⟩ | ⟨mid, tokens, _, turn⟩
  · rw [turn]
    rw [tokens, List.length_cons] at enough
    apply bind_ne_unfinished (line mid (by omega))
    intro right s'' _
    exact alloc_finishes _ _ _
  · rw [turn]
    nofun

theorem parsepipe_finishes (exec : Finishes 2 fuel (parseexec fuel)) (pipe : Finishes 3 fuel (parsepipe fuel)) :
    Finishes 3 (fuel + 1) (parsepipe (fuel + 1)) := by
  intro scan enough
  rw [parsepipe]
  apply bind_ne_unfinished (exec scan (by omega))
  intro left s parsed
  obtain ⟨tree, ts, isLeft, derives, split⟩ := (parse_sound fuel).2.2.1 _ _ _ parsed
  rw [split, List.length_append] at enough
  rcases symbol_cases (c := '|') (by decide) (by decide) s (do let right ← parsepipe fuel; pipecmd left right)
    (pure left) with ⟨mid, tokens, _, turn⟩ | ⟨mid, tokens, _, turn⟩
  · rw [turn]
    rw [tokens, List.length_cons] at enough
    apply bind_ne_unfinished (pipe mid (by omega))
    intro right s' _
    exact alloc_finishes _ _ _
  · rw [turn]
    nofun

theorem parseexec_finishes (block : Finishes 1 fuel (parseblock fuel)) :
    Finishes 2 (fuel + 1) (parseexec (fuel + 1)) := by
  intro scan enough
  obtain ⟨s, atPeek, tokens, _⟩ := (peek_yields ['('] (by decide) scan).step
  rw [← tokens] at enough
  rw [parseexec, atPeek]
  cases (lexemes scan.ps).head?.any fun l => l.starts ['('] with
  | true => exact block s (by omega)
  | false =>
    apply bind_ne_unfinished (alloc_finishes _ _ _)
    intro node s' made
    obtain ⟨isNode, kept⟩ := alloc_done made
    rw [← kept] at enough
    apply bind_ne_unfinished (parseredirs_finishes (by omega))
    intro ret s'' redirected
    have isTree : node = (Tree.exec []).cmd := isNode
    rw [isTree] at redirected
    obtain ⟨redirects, only, isRet, split⟩ := parseredirs_sound redirected
    rw [split, List.length_append] at enough
    have none := words_redirects only
    have simple : ((Tree.exec []).addAll redirects).Simple := simple_addAll trivial
    have finishes : parseargs fuel ((Tree.exec []).addAll redirects).words.length
        ((Tree.exec []).addAll redirects).cmd s'' ≠ .unfinished :=
      parseargs_finishes simple (by rw [none]; decide) (by omega)
    rw [none, ← isRet] at finishes
    exact finishes

theorem parseblock_finishes (line : Finishes 4 fuel (parseline fuel)) :
    Finishes 1 (fuel + 1) (parseblock (fuel + 1)) := by
  intro scan enough
  rw [parseblock]
  rcases symbol_cases (c := '(') (by decide) (by decide) scan _ _ with ⟨mid, tokens, _, turn⟩ | ⟨mid, tokens, _, turn⟩
  · rw [turn]
    rw [tokens, List.length_cons] at enough
    apply bind_ne_unfinished (line mid (by omega))
    intro inner s lined
    obtain ⟨tree, ts, isInner, derives, split⟩ := (parse_sound fuel).1 _ _ _ lined
    rw [split, List.length_append] at enough
    rcases symbol_cases (c := ')') (by decide) (by decide) s _ _ with
      ⟨mid', tokens', _, turn'⟩ | ⟨mid', tokens', _, turn'⟩
    · rw [turn']
      rw [tokens', List.length_cons] at enough
      exact parseredirs_finishes (by omega)
    · rw [turn']
      nofun
  · rw [turn]
    nofun

end

theorem parse_finishes (fuel : Nat) :
    Finishes 4 fuel (parseline fuel) ∧ Finishes 3 fuel (parsepipe fuel) ∧ Finishes 2 fuel (parseexec fuel) ∧
      Finishes 1 fuel (parseblock fuel) := by
  induction fuel with
  | zero => exact ⟨fun _ _ => by omega, fun _ _ => by omega, fun _ _ => by omega, fun _ _ => by omega⟩
  | succ fuel ih =>
    obtain ⟨line, pipe, exec, block⟩ := ih
    exact ⟨parseline_finishes pipe line, parsepipe_finishes exec pipe, parseexec_finishes block,
      parseblock_finishes line⟩

/-! ## What is derived is accepted -/

section
variable {T : Type}

theorem Derives.backs {tree : Tree T} {ts : List (Lexeme T)} (derives : Derives .back tree ts) :
    ∃ n sub us, tree = Tree.back^[n] sub ∧ ts = us ++ List.replicate n amp ∧ Derives .pipe sub us := by
  generalize isBack : Level.back = level at derives
  induction derives with
  | front inner => exact ⟨0, _, _, rfl, (List.append_nil _).symm, inner⟩
  | back inner ih =>
    obtain ⟨n, sub, us, isTree, split, derives⟩ := ih rfl
    refine ⟨n + 1, sub, us, ?_, ?_, derives⟩
    · rw [isTree, Function.iterate_succ_apply']
    · rw [split, List.replicate_succ', List.append_assoc]
  | simple parts room => cases isBack
  | block inner redirects only ih => cases isBack
  | exec inner ih => cases isBack
  | pipe first second firstIh secondIh => cases isBack
  | last inner ih => cases isBack
  | list first second firstIh secondIh => cases isBack

theorem arena_backs (n : Nat) (tree : Tree T) : (Tree.back^[n] tree).arena = tree.arena + n * backSize := by
  induction n with
  | zero => rw [Nat.zero_mul]; rfl
  | succ n ih =>
    rw [Function.iterate_succ_apply', Tree.arena, ih, Nat.succ_mul]
    rfl

end

section
variable {fuel : Nat} {tree : Tree Token} {scan : Scan} {rest ts : List (Lexeme Token)}

theorem parseback_complete (n : Nat) (tokens : lexemes scan.ps = List.replicate n amp ++ rest)
    (follows : Follows (follow .back) rest) (enough : n < fuel) (memory : scan.used + n * backSize ≤ MAXN) :
    Yields (parseback fuel tree.cmd) (Tree.back^[n] tree).cmd scan rest (scan.used + n * backSize) := by
  induction n generalizing tree scan fuel with
  | zero =>
    obtain ⟨fuel, rfl⟩ : ∃ g, fuel = g + 1 := ⟨fuel - 1, by omega⟩
    have peeked := follows.peek ['&'] tokens (by decide) (by decide)
    obtain ⟨mid, left, used, turn⟩ :=
      symbol_absent peeked (do let cmd ← backcmd tree.cmd; parseback fuel cmd) (pure tree.cmd)
    refine ⟨mid, ?_, left, by rw [used, Nat.zero_mul]; rfl⟩
    rw [parseback]
    exact turn
  | succ n ih =>
    obtain ⟨fuel, rfl⟩ : ∃ g, fuel = g + 1 := ⟨fuel - 1, by omega⟩
    rw [Nat.succ_mul] at memory ⊢
    obtain ⟨mid, left, used, turn⟩ := symbol_taken (c := '&') (by decide) (by decide) tokens
      (do let cmd ← backcmd tree.cmd; parseback fuel cmd) (pure tree.cmd)
    have roomy : mid.used + backSize ≤ MAXN := by omega
    obtain ⟨s, made, sTokens, sUsed⟩ := (alloc_yields backSize (Tree.back tree).cmd roomy).step
    have later : Yields (parseback fuel (Tree.back tree).cmd) (Tree.back^[n] (.back tree)).cmd s rest
        (s.used + n * backSize) := ih (sTokens.trans left) (Nat.lt_of_succ_lt_succ enough) (by omega)
    obtain ⟨final, done, finalTokens, finalUsed⟩ := later
    refine ⟨final, ?_, finalTokens, by omega⟩
    rw [parseback, turn]
    exact (made _).trans done

def Complete (level : Level) (more fuel : Nat) (p : Parse Cmd) : Prop :=
  ∀ tree ts rest scan, Derives level tree ts → lexemes scan.ps = ts ++ rest → Follows (follow level) rest →
    4 * ts.length + more ≤ fuel → scan.used + tree.arena ≤ MAXN →
    Yields p tree.cmd scan rest (scan.used + tree.arena)

theorem front_complete (pipe : Complete .pipe 3 fuel (parsepipe fuel)) (derives : Derives .back tree ts)
    (tokens : lexemes scan.ps = ts ++ rest) (follows : Follows (follow .back) rest) (enough : 4 * ts.length + 3 ≤ fuel)
    (memory : scan.used + tree.arena ≤ MAXN) :
    Yields (do let first ← parsepipe fuel; parseback fuel first) tree.cmd scan rest (scan.used + tree.arena) := by
  obtain ⟨n, sub, us, rfl, rfl, inner⟩ := derives.backs
  rw [arena_backs] at memory ⊢
  rw [List.append_assoc] at tokens
  rw [List.length_append, List.length_replicate] at enough
  have next : Follows (follow .pipe) (List.replicate n amp ++ rest) := by
    cases n with
    | zero => exact follows.mono (by decide)
    | succ n =>
      intro l head
      cases head
      rfl
  apply (pipe sub us _ scan inner tokens next (by omega) (by omega)).bind
  intro mid left used
  have backs : Yields (parseback fuel sub.cmd) (Tree.back^[n] sub).cmd mid rest (mid.used + n * backSize) :=
    parseback_complete n left follows (by omega) (by omega)
  rw [used, Nat.add_assoc] at backs
  exact backs

theorem parseline_complete (pipe : Complete .pipe 3 fuel (parsepipe fuel))
    (line : Complete .line 4 fuel (parseline fuel)) :
    Complete .line 4 (fuel + 1) (parseline (fuel + 1)) := by
  intro tree ts rest scan derives tokens follows enough memory
  cases derives with
  | last inner =>
    obtain ⟨mid, front, left, used⟩ :=
      front_complete pipe inner tokens (follows.mono (by decide)) (by omega) memory
    obtain ⟨first, s, piped, backed⟩ := bind_eq_done.mp front
    have peeked := follows.peek [';'] left (by decide) (by decide)
    obtain ⟨s', left', used', turn⟩ := symbol_absent peeked (do let rest ← parseline fuel; listcmd tree.cmd rest)
      (pure tree.cmd)
    refine ⟨s', ?_, left', used'.trans used⟩
    rw [parseline, bind_of_done piped, bind_of_done backed]
    exact turn
  | list first second =>
    rename_i l r us vs
    rw [Tree.arena] at memory ⊢
    rw [List.append_assoc, List.cons_append] at tokens
    rw [List.length_append, List.length_cons] at enough
    have next : Follows (follow .back) (.symbol ';' :: (vs ++ rest)) := by
      intro l head
      cases head
      rfl
    obtain ⟨mid, front, left, used⟩ := front_complete pipe first tokens next (by omega) (by omega)
    obtain ⟨cmd, s, piped, backed⟩ := bind_eq_done.mp front
    obtain ⟨s', left', used', turn⟩ := symbol_taken (c := ';') (by decide) (by decide) left
      (do let rest ← parseline fuel; listcmd l.cmd rest) (pure l.cmd)
    have later := line r vs rest s' second left' follows (by omega) (by omega)
    have made : Yields (do let rest ← parseline fuel; listcmd l.cmd rest) (.list l.cmd r.cmd) s' rest
        (s'.used + r.arena + listSize) :=
      later.bind fun mid tokens used => alloc_complete listSize (.list l.cmd r.cmd) tokens used (by omega)
    obtain ⟨final, made, finalTokens, finalUsed⟩ := made
    refine ⟨final, ?_, finalTokens, by omega⟩
    rw [parseline, bind_of_done piped, bind_of_done backed, turn]
    exact made

theorem parsepipe_complete (exec : Complete .exec 2 fuel (parseexec fuel))
    (pipe : Complete .pipe 3 fuel (parsepipe fuel)) :
    Complete .pipe 3 (fuel + 1) (parsepipe (fuel + 1)) := by
  intro tree ts rest scan derives tokens follows enough memory
  cases derives with
  | exec inner =>
    obtain ⟨mid, parsed, left, used⟩ :=
      exec tree ts rest scan inner tokens (follows.mono (by decide)) (by omega) memory
    have peeked := follows.peek ['|'] left (by decide) (by decide)
    obtain ⟨s, left', used', turn⟩ := symbol_absent peeked (do let right ← parsepipe fuel; pipecmd tree.cmd right)
      (pure tree.cmd)
    refine ⟨s, ?_, left', used'.trans used⟩
    rw [parsepipe, bind_of_done parsed]
    exact turn
  | pipe first second =>
    rename_i l r us vs
    rw [Tree.arena] at memory ⊢
    rw [List.append_assoc, List.cons_append] at tokens
    rw [List.length_append, List.length_cons] at enough
    have next : Follows (follow .exec) (.symbol '|' :: (vs ++ rest)) := by
      intro l head
      cases head
      rfl
    obtain ⟨mid, parsed, left, used⟩ := exec l us _ scan first tokens next (by omega) (by omega)
    obtain ⟨s, left', used', turn⟩ := symbol_taken (c := '|') (by decide) (by decide) left
      (do let right ← parsepipe fuel; pipecmd l.cmd right) (pure l.cmd)
    have later := pipe r vs rest s second left' follows (by omega) (by omega)
    have made : Yields (do let right ← parsepipe fuel; pipecmd l.cmd right) (.pipe l.cmd r.cmd) s rest
        (s.used + r.arena + pipeSize) :=
      later.bind fun mid tokens used => alloc_complete pipeSize (.pipe l.cmd r.cmd) tokens used (by omega)
    obtain ⟨final, made, finalTokens, finalUsed⟩ := made
    refine ⟨final, ?_, finalTokens, by omega⟩
    rw [parsepipe, bind_of_done parsed, turn]
    exact made

def CompleteBlock (fuel : Nat) (p : Parse Cmd) : Prop :=
  ∀ tree ts redirects rest scan, Derives .line tree ts → redirects.filterMap Part.word? = [] →
    lexemes scan.ps = .symbol '(' :: (ts ++ .symbol ')' :: (spell redirects ++ rest)) → Follows (follow .exec) rest →
    4 * ts.length + 4 * (spell redirects).length + 5 ≤ fuel → scan.used + (tree.addAll redirects).arena ≤ MAXN →
    Yields p (tree.addAll redirects).cmd scan rest (scan.used + (tree.addAll redirects).arena)

theorem length_spell {T : Type} (parts : List (Part T)) : parts.length ≤ (spell parts).length := by
  induction parts with
  | nil => exact Nat.le_refl 0
  | cons part parts ih =>
    cases part with
    | word t => exact Nat.succ_le_succ ih
    | redirect how file => exact Nat.le_succ_of_le (Nat.succ_le_succ ih)

theorem starts_spell {parts : List (Part Token)} (follows : Follows (follow .exec) rest) :
    (spell parts ++ rest).head?.any (fun l => l.starts ['(']) = false := by
  cases parts with
  | nil =>
    change rest.head?.any _ = false
    cases head : rest.head? with
    | none => rfl
    | some l => exact Lexeme.starts_eq_false (follows l head) (by decide)
  | cons part parts =>
    cases part with
    | word t => rfl
    | redirect how file =>
      cases how with
      | input => rfl
      | output => rfl
      | append => rfl

theorem parseexec_complete (block : CompleteBlock fuel (parseblock fuel)) :
    Complete .exec 2 (fuel + 1) (parseexec (fuel + 1)) := by
  intro tree ts rest scan derives tokens follows enough memory
  have peeked := peek_yields ['('] (by decide) scan
  cases derives with
  | simple parts room =>
    rw [tokens, starts_spell follows] at peeked
    obtain ⟨s, atPeek, left, used⟩ := peeked.step
    rw [arena_addAll, Tree.arena] at memory ⊢
    have bound := length_spell parts
    have simple : (Tree.exec ([] : List Token)).Simple := trivial
    have few : ((Tree.exec []).addAll parts).words.length < MAXARGS := by
      rw [words_addAll parts simple]
      exact room
    obtain ⟨s', made, left', used'⟩ :=
      (alloc_complete execSize (Tree.exec []).cmd left used (by omega)).step
    have args : Yields (do let ret ← parseredirs fuel (Tree.exec []).cmd; parseargs fuel 0 ret)
        ((Tree.exec []).addAll parts).cmd s' rest (s'.used + partsArena parts) :=
      parseargs_complete parts simple few left' follows (by omega) (by omega) (by omega)
    obtain ⟨final, done, finalTokens, finalUsed⟩ := args
    refine ⟨final, ?_, finalTokens, by omega⟩
    rw [parseexec, atPeek]
    exact (made _).trans done
  | block inner redirects only =>
    rename_i sub us
    have split : lexemes scan.ps = .symbol '(' :: (us ++ .symbol ')' :: (spell redirects ++ rest)) := by
      rw [tokens, List.append_assoc]
      rfl
    rw [split] at peeked
    obtain ⟨s, atPeek, left, used⟩ := peeked.step
    rw [List.length_append, List.length_cons, List.length_cons] at enough
    obtain ⟨final, done, finalTokens, finalUsed⟩ :=
      block sub us redirects rest s inner only left follows (by omega) (by omega)
    refine ⟨final, ?_, finalTokens, by omega⟩
    rw [parseexec, atPeek]
    exact done

theorem parseblock_complete (line : Complete .line 4 fuel (parseline fuel)) :
    CompleteBlock (fuel + 1) (parseblock (fuel + 1)) := by
  intro tree ts redirects rest scan derives only tokens follows enough memory
  rw [arena_addAll] at memory ⊢
  have bound := length_spell redirects
  have next : Follows (follow .line) (.symbol ')' :: (spell redirects ++ rest)) := by
    intro l head
    cases head
    rfl
  rw [parseblock]
  obtain ⟨s, left, used, turn⟩ := symbol_taken (c := '(') (by decide) (by decide) tokens _ _
  obtain ⟨mid, lined, left', used'⟩ := line tree ts _ s derives left next (by omega) (by omega)
  obtain ⟨s', left'', used'', turn'⟩ :=
    symbol_taken (c := ')') (by decide) (by decide) left' (parseredirs fuel tree.cmd)
    (Parse.panic "syntax - missing )")
  have redirected : Yields (parseredirs fuel tree.cmd) (tree.addAll redirects).cmd s' rest
      (s'.used + partsArena redirects) :=
    parseredirs_complete redirects only left'' follows (by omega) (by omega)
  obtain ⟨final, done, finalTokens, finalUsed⟩ := redirected
  refine ⟨final, ?_, finalTokens, by omega⟩
  exact turn.trans ((bind_of_done lined).trans (turn'.trans done))

end

theorem parse_complete (fuel : Nat) :
    Complete .line 4 fuel (parseline fuel) ∧ Complete .pipe 3 fuel (parsepipe fuel) ∧
      Complete .exec 2 fuel (parseexec fuel) ∧ CompleteBlock fuel (parseblock fuel) := by
  induction fuel with
  | zero => exact ⟨fun _ _ _ _ _ _ _ _ => by omega, fun _ _ _ _ _ _ _ _ => by omega, fun _ _ _ _ _ _ _ _ => by omega,
      fun _ _ _ _ _ _ _ _ _ _ => by omega⟩
  | succ fuel ih =>
    obtain ⟨line, pipe, exec, block⟩ := ih
    exact ⟨parseline_complete pipe line, parsepipe_complete exec pipe, parseexec_complete block,
      parseblock_complete line⟩

end Xv6.Shell
