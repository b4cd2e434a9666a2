import Xv6.Shell.Grammar

/-! The loops of `parseredirs` and `parseexec`, in terms of the tokens that are left.

`Tree.cmd` gives the nodes of a tree. For each loop there is what a turn can do, what a run of
turns has read when it is over, that it comes to an end, and that it reads what there is.
-/

set_option autoImplicit false

namespace Xv6.Shell

open Calls (O_RDONLY O_WRONLY O_CREAT)

def slots (pointer : Token → Ptr) (words : List Token) : List (Option Ptr) :=
  words.map (fun t => some (pointer t)) ++ List.replicate (MAXARGS - words.length) none

def Tree.cmd : Tree Token → Cmd
  | exec words => .exec (slots (·.q) words) (slots (·.eq) words)
  | redir sub file direction => .redir sub.cmd file.q file.eq direction.mode direction.fd
  | pipe left right => .pipe left.cmd right.cmd
  | list left right => .list left.cmd right.cmd
  | back sub => .back sub.cmd

section
variable {T : Type} {tree : Tree Token} {words : List Token} {t : Token} {pointer : Token → Ptr}

theorem slots_eq (pointer : Token → Ptr) (room : words.length < MAXARGS) : slots pointer words =
    words.map (fun t => some (pointer t)) ++ none :: List.replicate (MAXARGS - (words.length + 1)) none := by
  have split : MAXARGS - words.length = MAXARGS - (words.length + 1) + 1 := by omega
  rw [slots, split, List.replicate_succ]

theorem slots_push (room : words.length < MAXARGS) :
    (slots pointer words).set words.length (some (pointer t)) = slots pointer (words ++ [t]) := by
  rw [slots_eq pointer room, slots, List.set_append_right _ _ (by simp)]
  simp

theorem slots_end (room : words.length < MAXARGS) :
    (slots pointer words).set words.length none = slots pointer words := by
  rw [slots_eq pointer room, List.set_append_right _ _ (by simp)]
  simp

theorem cmd_push (room : tree.words.length < MAXARGS) :
    (tree.push t).cmd = tree.cmd.setArg tree.words.length (some t.q) (some t.eq) := by
  induction tree with
  | exec words => exact congrArg₂ Cmd.exec (slots_push room).symm (slots_push room).symm
  | redir sub file direction ih => exact congrArg (Cmd.redir · file.q file.eq direction.mode direction.fd) (ih room)
  | pipe left right => rfl
  | list left right => rfl
  | back sub => rfl

theorem cmd_end (room : tree.words.length < MAXARGS) : tree.cmd.setArg tree.words.length none none = tree.cmd := by
  induction tree with
  | exec words => exact congrArg₂ Cmd.exec (slots_end room) (slots_end room)
  | redir sub file direction ih => exact congrArg (Cmd.redir · file.q file.eq direction.mode direction.fd) (ih room)
  | pipe left right => rfl
  | list left right => rfl
  | back sub => rfl

end

def follow : Level → List Char
  | .exec => ['|', ')', '&', ';']
  | .pipe => [')', '&', ';']
  | .back => [')', ';']
  | .line => [')']

def Follows (toks : List Char) (rest : List (Lexeme Token)) : Prop := ∀ l ∈ rest.head?, l.starts toks = true

theorem Lexeme.starts_eq_false {toks others : List Char} {l : Lexeme Token} (starts : l.starts toks = true)
    (apart : (toks.all fun c => !others.contains c) = true) : l.starts others = false := by
  cases l with
  | symbol c =>
    simp only [Lexeme.starts, List.contains_iff_mem] at starts ⊢
    simpa using List.all_eq_true.mp apart _ starts
  | word t => rfl

theorem Follows.mono {toks more : List Char} {rest : List (Lexeme Token)} (follows : Follows toks rest)
    (sub : toks ⊆ more) : Follows more rest := by
  intro l head
  have starts := follows l head
  cases l with
  | symbol c =>
    simp only [Lexeme.starts, List.contains_iff_mem] at starts ⊢
    exact sub starts
  | word t => cases starts

theorem Follows.peek (others : List Char) {toks : List Char} {rest : List (Lexeme Token)} {scan : Scan}
    (follows : Follows toks rest) (tokens : lexemes scan.ps = rest) (known : others ⊆ symbols)
    (apart : (toks.all fun c => !others.contains c) = true) : Yields (Shell.peek others) false scan rest scan.used := by
  have yields := peek_yields _ known scan
  rw [tokens] at yields
  cases head : rest.head? with
  | none =>
    rw [head] at yields
    exact yields
  | some l =>
    rw [head, Option.any_some, Lexeme.starts_eq_false (follows l head) apart] at yields
    exact yields

theorem peek_head (toks : List Char) {l : Lexeme Token} {ts : List (Lexeme Token)} {scan : Scan}
    (tokens : lexemes scan.ps = l :: ts) (known : toks ⊆ symbols) :
    Yields (peek toks) (l.starts toks) scan (l :: ts) scan.used := by
  have yields := peek_yields _ known scan
  rw [tokens] at yields
  exact yields

theorem symbol_kind {c : Char} (known : c = '+' ∨ c ∈ symbols) : c ≠ 'a' ∧ c ≠ nul := by
  rcases known with plus | member
  · rw [plus]
    decide
  · have other : (symbols.all fun c => c ≠ 'a' ∧ c ≠ nul) = true := by decide
    exact of_decide_eq_true (List.all_eq_true.mp other c member)

/-! ## Redirections -/

section
variable {fuel : Nat} {cmd : Cmd} {scan : Scan} {how : Redirect} {t : Token} {ts : List (Lexeme Token)}

theorem starts_redirect {l : Lexeme Token} (starts : l.starts ['<', '>'] = true) :
    ∃ how : Redirect, l = .symbol how.symbol := by
  cases l with
  | symbol c =>
    simp only [Lexeme.starts, List.contains_iff_mem] at starts
    by_cases append : c = '+'
    · exact ⟨.append, congrArg _ append⟩
    · rw [if_neg append] at starts
      rcases List.mem_cons.mp starts with input | output
      · exact ⟨.input, congrArg _ input⟩
      · exact ⟨.output, congrArg _ (List.mem_singleton.mp output)⟩
  | word t => cases starts

theorem redirect_starts : (Lexeme.symbol (T := Token) how.symbol).starts ['<', '>'] = true := by
  cases how with
  | input => rfl
  | output => rfl
  | append => rfl

theorem parseredirs_redirect (fuel : Nat) (cmd : Cmd) (tokens : lexemes scan.ps = .symbol how.symbol :: .word t :: ts) :
    ∃ mid, lexemes mid.ps = ts ∧ mid.used = scan.used ∧ parseredirs (fuel + 1) cmd scan =
      (redircmd cmd t.q t.eq how.direction.mode how.direction.fd >>= parseredirs fuel) mid := by
  have peeked := peek_head ['<', '>'] tokens (by decide)
  rw [redirect_starts] at peeked
  obtain ⟨s, atPeek, sTokens, sUsed⟩ := peeked.step
  obtain ⟨first, got⟩ := (gettoken_symbol sTokens).2
  obtain ⟨s', atFirst, sTokens', sUsed'⟩ := got.step
  obtain ⟨mid, atSecond, midTokens, midUsed⟩ := (gettoken_word sTokens').step
  refine ⟨mid, midTokens, by rw [midUsed, sUsed', sUsed], ?_⟩
  rw [parseredirs, atPeek]
  simp only [if_true]
  rw [atFirst]
  simp only []
  rw [atSecond]
  cases how with
  | input => rfl
  | output => rfl
  | append => rfl

theorem parseredirs_rest (peeked : Yields (peek ['<', '>']) false scan ts scan.used) :
    Yields (parseredirs (fuel + 1) cmd) cmd scan ts scan.used := by
  obtain ⟨mid, atPeek, tokens, used⟩ := peeked.step
  refine ⟨mid, ?_, tokens, used⟩
  rw [parseredirs, atPeek]
  rfl

theorem parseredirs_missing (tokens : lexemes scan.ps = .symbol how.symbol :: ts)
    (missing : ∀ t us, ts ≠ .word t :: us) :
    ∃ why, parseredirs (fuel + 1) cmd scan = .stop why := by
  have peeked := peek_head ['<', '>'] tokens (by decide)
  rw [redirect_starts] at peeked
  obtain ⟨s, atPeek, sTokens, sUsed⟩ := peeked.step
  obtain ⟨first, got⟩ := (gettoken_symbol sTokens).2
  obtain ⟨s', atFirst, sTokens', sUsed'⟩ := got.step
  have kind : ∃ c file, c ≠ 'a' ∧ ∃ us, Yields gettoken (c, file) s' us s'.used := by
    cases ts with
    | nil =>
      obtain ⟨file, got⟩ := gettoken_end sTokens'
      exact ⟨nul, file, by decide, _, got⟩
    | cons l us =>
      cases l with
      | word t => exact absurd rfl (missing t us)
      | symbol c =>
        obtain ⟨known, file, got⟩ := gettoken_symbol sTokens'
        exact ⟨c, file, (symbol_kind known).1, _, got⟩
  obtain ⟨c, file, notWord, us, got⟩ := kind
  obtain ⟨mid, atSecond, _⟩ := got.step
  refine ⟨.panic "missing file for redirection", ?_⟩
  rw [parseredirs, atPeek]
  simp only [if_true]
  rw [atFirst]
  simp only []
  rw [atSecond]
  simp only [if_pos notWord]
  rfl

theorem parseredirs_cases (fuel : Nat) (cmd : Cmd) (scan : Scan) :
    Yields (parseredirs (fuel + 1) cmd) cmd scan (lexemes scan.ps) scan.used ∨
      (∃ why, parseredirs (fuel + 1) cmd scan = .stop why) ∨
      ∃ (how : Redirect) (t : Token) (ts : List (Lexeme Token)) (mid : Scan),
        lexemes scan.ps = .symbol how.symbol :: .word t :: ts ∧ lexemes mid.ps = ts ∧
        parseredirs (fuel + 1) cmd scan =
          parseredirs fuel (.redir cmd t.q t.eq how.direction.mode how.direction.fd) mid := by
  have peeked := peek_yields ['<', '>'] (by decide) scan
  cases starts : (lexemes scan.ps).head?.any fun l => l.starts ['<', '>'] with
  | false =>
    rw [starts] at peeked
    exact .inl (parseredirs_rest peeked)
  | true =>
    refine .inr ?_
    cases tokens : lexemes scan.ps with
    | nil =>
      rw [tokens] at starts
      cases starts
    | cons l ts =>
      rw [tokens] at starts
      obtain ⟨how, isSymbol⟩ := starts_redirect starts
      rw [isSymbol] at tokens ⊢
      by_cases file : ∃ t us, ts = .word t :: us
      · obtain ⟨t, us, split⟩ := file
        rw [split] at tokens ⊢
        obtain ⟨mid, midTokens, midUsed, turn⟩ := parseredirs_redirect fuel cmd tokens
        rcases alloc_cases redirSize (.redir cmd t.q t.eq how.direction.mode how.direction.fd) mid with made | full
        · obtain ⟨after, made, afterTokens, _⟩ := made.step
          exact .inr ⟨how, t, us, after, rfl, afterTokens.trans midTokens, turn.trans (made _)⟩
        · exact .inl ⟨.usedOut, turn.trans (bind_of_stop full)⟩
      · exact .inl (parseredirs_missing tokens (fun t us split => file ⟨t, us, split⟩))

end

theorem parseredirs_sound {fuel : Nat} {tree : Tree Token} {cmd : Cmd} {scan scan' : Scan}
    (done : parseredirs fuel tree.cmd scan = .done cmd scan') :
    ∃ redirects : List (Part Token), redirects.filterMap Part.word? = [] ∧ cmd = (tree.addAll redirects).cmd ∧
      lexemes scan.ps = spell redirects ++ lexemes scan'.ps := by
  induction fuel generalizing tree scan with
  | zero => cases done
  | succ fuel ih =>
    rcases parseredirs_cases fuel tree.cmd scan with
      ⟨s, ends, tokens, _⟩ | ⟨why, stops⟩ | ⟨how, t, ts, mid, tokens, left, turn⟩
    · cases ends.symm.trans done
      exact ⟨[], rfl, rfl, tokens.symm⟩
    · cases stops.symm.trans done
    · have node : Cmd.redir tree.cmd t.q t.eq how.direction.mode how.direction.fd =
          (tree.add (.redirect how t)).cmd := rfl
      rw [turn, node] at done
      obtain ⟨redirects, only, isCmd, split⟩ := ih done
      refine ⟨.redirect how t :: redirects, only, isCmd, ?_⟩
      rw [tokens, ← left, split]
      rfl

theorem parseredirs_finishes {fuel : Nat} {cmd : Cmd} {scan : Scan} (enough : (lexemes scan.ps).length < fuel) :
    parseredirs fuel cmd scan ≠ .unfinished := by
  induction fuel generalizing cmd scan with
  | zero => exact absurd enough (Nat.not_lt_zero _)
  | succ fuel ih =>
    rcases parseredirs_cases fuel cmd scan with ⟨s, ends, _⟩ | ⟨why, stops⟩ | ⟨how, t, ts, mid, tokens, left, turn⟩
    · rw [ends]
      nofun
    · rw [stops]
      nofun
    · rw [turn]
      apply ih
      rw [left]
      rw [tokens] at enough
      simp only [List.length_cons] at enough
      omega

/-! ## Simple commands -/

section
variable {fuel : Nat} {cmd : Cmd} {scan : Scan} {argc : Nat} {t : Token} {ts : List (Lexeme Token)}

theorem parseargs_word (fuel : Nat) (cmd : Cmd) (tokens : lexemes scan.ps = .word t :: ts) (room : argc + 1 < MAXARGS) :
    ∃ mid, lexemes mid.ps = ts ∧ mid.used = scan.used ∧ parseargs (fuel + 1) argc cmd scan =
      (do
        let ret ← parseredirs fuel (cmd.setArg argc (some t.q) (some t.eq))
        parseargs fuel (argc + 1) ret) mid := by
  have peeked : Yields (peek ['|', ')', '&', ';']) false scan _ scan.used := peek_head _ tokens (by decide)
  obtain ⟨s, atPeek, sTokens, sUsed⟩ := peeked.step
  obtain ⟨mid, atWord, midTokens, midUsed⟩ := (gettoken_word sTokens).step
  refine ⟨mid, midTokens, midUsed.trans sUsed, ?_⟩
  rw [parseargs, atPeek]
  simp only [Bool.false_eq_true, if_false]
  rw [atWord]
  have full : ¬argc + 1 ≥ MAXARGS := Nat.not_le.mpr room
  simp only [if_neg full]
  rfl

theorem parseargs_follow (fuel argc : Nat) (cmd : Cmd) (follows : Follows ['|', ')', '&', ';'] (lexemes scan.ps)) :
    Yields (parseargs (fuel + 1) argc cmd) (cmd.setArg argc none none) scan (lexemes scan.ps) scan.used := by
  have peeked := peek_yields ['|', ')', '&', ';'] (by decide) scan
  cases tokens : lexemes scan.ps with
  | nil =>
    have peeked : Yields (peek ['|', ')', '&', ';']) false scan [] scan.used := by
      rw [tokens] at peeked
      exact peeked
    obtain ⟨s, atPeek, sTokens, sUsed⟩ := peeked.step
    obtain ⟨t, got⟩ := gettoken_end sTokens
    obtain ⟨mid, atEnd, midTokens, midUsed⟩ := got.step
    refine ⟨mid, ?_, midTokens, midUsed.trans sUsed⟩
    rw [parseargs, atPeek]
    simp only [Bool.false_eq_true, if_false]
    rw [atEnd]
    rfl
  | cons l ts =>
    rw [tokens] at peeked follows
    have starts : (List.head? (l :: ts)).any (fun l => l.starts ['|', ')', '&', ';']) = true := follows l rfl
    rw [starts] at peeked
    obtain ⟨mid, atPeek, midTokens, midUsed⟩ := peeked.step
    refine ⟨mid, ?_, midTokens, midUsed⟩
    rw [parseargs, atPeek]
    rfl

theorem parseargs_cases (fuel argc : Nat) (cmd : Cmd) (scan : Scan) :
    Yields (parseargs (fuel + 1) argc cmd) (cmd.setArg argc none none) scan (lexemes scan.ps) scan.used ∨
      (∃ why, parseargs (fuel + 1) argc cmd scan = .stop why) ∨
      ∃ (t : Token) (ts : List (Lexeme Token)) (mid : Scan), argc + 1 < MAXARGS ∧
        lexemes scan.ps = .word t :: ts ∧ lexemes mid.ps = ts ∧ parseargs (fuel + 1) argc cmd scan =
          (do
            let ret ← parseredirs fuel (cmd.setArg argc (some t.q) (some t.eq))
            parseargs fuel (argc + 1) ret) mid := by
  cases tokens : lexemes scan.ps with
  | nil =>
    refine .inl ?_
    rw [← tokens]
    exact parseargs_follow fuel argc cmd (by rw [tokens]; nofun)
  | cons l ts =>
    by_cases starts : l.starts ['|', ')', '&', ';'] = true
    · refine .inl ?_
      rw [← tokens]
      apply parseargs_follow
      rw [tokens]
      intro l' head
      cases head
      exact starts
    · refine .inr ?_
      rw [Bool.not_eq_true] at starts
      have peeked := peek_head ['|', ')', '&', ';'] tokens (by decide)
      rw [starts] at peeked
      obtain ⟨s, atPeek, sTokens, sUsed⟩ := peeked.step
      cases l with
      | symbol c =>
        refine .inl ⟨.panic "syntax", ?_⟩
        obtain ⟨known, first, got⟩ := gettoken_symbol sTokens
        obtain ⟨mid, atSymbol, _⟩ := got.step
        obtain ⟨notWord, notEnd⟩ := symbol_kind known
        rw [parseargs, atPeek]
        simp only [Bool.false_eq_true, if_false]
        rw [atSymbol]
        simp only [if_neg notEnd, if_pos notWord]
        rfl
      | word t =>
        by_cases room : argc + 1 < MAXARGS
        · obtain ⟨mid, left, _, turn⟩ := parseargs_word fuel cmd tokens room
          exact .inr ⟨t, ts, mid, room, rfl, left, turn⟩
        · refine .inl ⟨.panic "too many args", ?_⟩
          obtain ⟨mid, atWord, _⟩ := (gettoken_word sTokens).step
          have full : argc + 1 ≥ MAXARGS := Nat.le_of_not_lt room
          rw [parseargs, atPeek]
          simp only [Bool.false_eq_true, if_false]
          rw [atWord]
          simp only [if_pos full]
          rfl

end

section
variable {f fuel : Nat} {tree : Tree Token} {cmd : Cmd} {scan scan' : Scan} {rest : List (Lexeme Token)}

theorem parseargs_sound (simple : tree.Simple) (room : tree.words.length < MAXARGS)
    (done : parseargs fuel tree.words.length tree.cmd scan = .done cmd scan') :
    ∃ parts : List (Part Token), cmd = (tree.addAll parts).cmd ∧ lexemes scan.ps = spell parts ++ lexemes scan'.ps ∧
      (tree.addAll parts).words.length < MAXARGS := by
  induction fuel generalizing tree scan with
  | zero => cases done
  | succ fuel ih =>
    rcases parseargs_cases fuel tree.words.length tree.cmd scan with
      ⟨s, ends, tokens, _⟩ | ⟨why, stops⟩ | ⟨t, ts, mid, few, tokens, left, turn⟩
    · cases ends.symm.trans done
      exact ⟨[], cmd_end room, tokens.symm, room⟩
    · cases stops.symm.trans done
    · rw [turn, ← cmd_push room] at done
      obtain ⟨c, s, redirected, done⟩ := bind_eq_done.mp done
      obtain ⟨redirects, only, isCmd, split⟩ := parseredirs_sound redirected
      have pushed := simple_push (t := t) simple
      have count := words_push_redirects (t := t) simple only
      rw [isCmd, ← count] at done
      obtain ⟨parts, isCmd', split', few'⟩ := ih (simple_addAll pushed) (count ▸ few) done
      have whole : tree.addAll (.word t :: (redirects ++ parts)) = ((tree.push t).addAll redirects).addAll parts :=
        addAll_append (tree.push t) redirects parts
      refine ⟨.word t :: (redirects ++ parts), by rw [isCmd', whole], ?_, by rw [whole]; exact few'⟩
      rw [tokens, ← left, split, split', ← List.append_assoc, ← spell_append]
      rfl

theorem parseargs_finishes (simple : tree.Simple) (room : tree.words.length < MAXARGS)
    (enough : (lexemes scan.ps).length < fuel) :
    parseargs fuel tree.words.length tree.cmd scan ≠ .unfinished := by
  induction fuel generalizing tree scan with
  | zero => exact absurd enough (Nat.not_lt_zero _)
  | succ fuel ih =>
    rcases parseargs_cases fuel tree.words.length tree.cmd scan with
      ⟨s, ends, _⟩ | ⟨why, stops⟩ | ⟨t, ts, mid, few, tokens, left, turn⟩
    · rw [ends]
      nofun
    · rw [stops]
      nofun
    · rw [turn, ← cmd_push room]
      rw [tokens, ← left, List.length_cons] at enough
      apply bind_ne_unfinished
      · exact parseredirs_finishes (by omega)
      · intro c s redirected
        obtain ⟨redirects, only, isCmd, split⟩ := parseredirs_sound redirected
        have pushed := simple_push (t := t) simple
        have count := words_push_redirects (t := t) simple only
        rw [isCmd, ← count]
        apply ih (simple_addAll pushed) (count ▸ few)
        rw [split, List.length_append] at enough
        omega

theorem parseredirs_turn {how : Redirect} {file : Token} {ts : List (Lexeme Token)} (fuel : Nat) (tree : Tree Token)
    (tokens : lexemes scan.ps = .symbol how.symbol :: .word file :: ts) (memory : scan.used + redirSize ≤ MAXN) :
    ∃ s, lexemes s.ps = ts ∧ s.used = scan.used + redirSize ∧
      parseredirs (fuel + 1) tree.cmd scan = parseredirs fuel (tree.add (.redirect how file)).cmd s := by
  obtain ⟨mid, midTokens, midUsed, turn⟩ := parseredirs_redirect fuel tree.cmd tokens
  rw [← midUsed] at memory
  obtain ⟨s, made, left, used⟩ := (alloc_yields redirSize (tree.add (.redirect how file)).cmd memory).step
  exact ⟨s, left.trans midTokens, by rw [used, midUsed], turn.trans (made _)⟩

-- The parser reads the parts of a simple command up to what may follow it.
theorem parseargs_complete (parts : List (Part Token)) (simple : tree.Simple)
    (room : (tree.addAll parts).words.length < MAXARGS) (tokens : lexemes scan.ps = spell parts ++ rest)
    (follows : Follows (follow .exec) rest) (first : parts.length < f) (second : parts.length < fuel)
    (memory : scan.used + partsArena parts ≤ MAXN) :
    Yields (do let ret ← parseredirs f tree.cmd; parseargs fuel tree.words.length ret) (tree.addAll parts).cmd scan rest
      (scan.used + partsArena parts) := by
  induction parts generalizing tree scan f fuel with
  | nil =>
    obtain ⟨f, rfl⟩ : ∃ g, f = g + 1 := ⟨f - 1, by omega⟩
    obtain ⟨fuel, rfl⟩ : ∃ g, fuel = g + 1 := ⟨fuel - 1, by omega⟩
    have ends : lexemes scan.ps = rest := tokens
    have few : tree.words.length < MAXARGS := room
    apply (parseredirs_rest (follows.peek ['<', '>'] ends (by decide) (by decide))).bind
    intro mid midTokens midUsed
    have args := parseargs_follow fuel tree.words.length tree.cmd (midTokens.symm ▸ follows)
    rw [cmd_end few, midTokens, midUsed] at args
    exact args
  | cons part parts ih =>
    simp only [List.length_cons] at first second
    obtain ⟨f, rfl⟩ : ∃ g, f = g + 1 := ⟨f - 1, by omega⟩
    cases part with
    | redirect how file =>
      rw [partsArena_redirect] at memory ⊢
      obtain ⟨s, left, used, loop⟩ := parseredirs_turn f tree tokens (by omega)
      have still : (tree.add (.redirect how file)).Simple := simple
      have fits : ((tree.add (.redirect how file)).addAll parts).words.length < MAXARGS := room
      have free : s.used + partsArena parts ≤ MAXN := by omega
      obtain ⟨final, done, finalTokens, finalUsed⟩ :=
        ih still fits left (Nat.lt_of_succ_lt_succ first) (Nat.lt_of_succ_lt second) free
      refine ⟨final, ?_, finalTokens, by omega⟩
      -- what remains of the program is the same one with one turn less
      rw [bind_apply, loop]
      exact done
    | word t =>
      obtain ⟨fuel, rfl⟩ : ∃ g, fuel = g + 1 := ⟨fuel - 1, by omega⟩
      have isWord : lexemes scan.ps = .word t :: (spell parts ++ rest) := tokens
      have few : tree.words.length + 1 < MAXARGS := by
        have count := congrArg List.length (words_addAll (.word t :: parts) simple)
        rw [List.length_append] at count
        have positive : 0 < ((Part.word t :: parts).filterMap Part.word?).length := Nat.succ_pos _
        omega
      apply (parseredirs_rest (peek_head ['<', '>'] isWord (by decide))).bind
      intro s sTokens sUsed
      obtain ⟨mid, midTokens, midUsed, turn⟩ := parseargs_word fuel tree.cmd sTokens few
      have fits : ((tree.push t).addAll parts).words.length < MAXARGS := room
      have free : mid.used + partsArena parts ≤ MAXN := by
        rw [midUsed, sUsed]
        exact memory
      have later := ih (simple_push simple) fits midTokens (Nat.lt_of_succ_lt_succ second)
        (Nat.lt_of_succ_lt_succ second) free
      rw [words_push simple, List.length_append, cmd_push (Nat.lt_of_succ_lt few), midUsed, sUsed] at later
      rw [Yields, turn]
      exact later

theorem parseredirs_complete (redirects : List (Part Token)) (only : redirects.filterMap Part.word? = [])
    (tokens : lexemes scan.ps = spell redirects ++ rest) (follows : Follows (follow .exec) rest)
    (enough : redirects.length < fuel) (memory : scan.used + partsArena redirects ≤ MAXN) :
    Yields (parseredirs fuel tree.cmd) (tree.addAll redirects).cmd scan rest (scan.used + partsArena redirects) := by
  induction redirects generalizing tree scan fuel with
  | nil =>
    obtain ⟨fuel, rfl⟩ : ∃ g, fuel = g + 1 := ⟨fuel - 1, by omega⟩
    exact parseredirs_rest (follows.peek ['<', '>'] tokens (by decide) (by decide))
  | cons part parts ih =>
    rw [List.length_cons] at enough
    obtain ⟨fuel, rfl⟩ : ∃ g, fuel = g + 1 := ⟨fuel - 1, by omega⟩
    cases part with
    | word t => cases only
    | redirect how file =>
      rw [partsArena_redirect] at memory ⊢
      obtain ⟨s, left, used, loop⟩ := parseredirs_turn fuel tree tokens (by omega)
      obtain ⟨final, done, finalTokens, finalUsed⟩ :=
        ih only left (Nat.lt_of_succ_lt_succ enough) (by omega)
      exact ⟨final, loop.trans done, finalTokens, by omega⟩

end

end Xv6.Shell
