import Xv6.Library.Circular
import Mathlib.Data.List.Infix

/-! The line discipline of `kern/console.c`: its buffer, and what it is for.

`Input` is the buffer with its three indices, which count through all of `size_t`.
`Line` is the same console as its users see it: the characters that readers have used
up, those that are committed, and the line that can still be edited.
-/

set_option autoImplicit false

namespace Xv6.Console

open Library

def INPUT_BUF : Nat := 128

theorem input_buf_pos : 0 < INPUT_BUF := by decide

-- `input.buf[x % INPUT_BUF]`
def slot (x : UInt64) : Fin INPUT_BUF := Circular.slot input_buf_pos x

-- `C(x)`, Control-x.
def C (x : UInt8) : UInt8 := x - '@'.toUInt8

def newline : UInt8 := '\n'.toUInt8

def eof : UInt8 := C 'D'.toUInt8

structure Input where
  buf : Fin INPUT_BUF → UInt8
  /-- Read index. -/
  r : UInt64
  /-- Write index. -/
  w : UInt64
  /-- Edit index. -/
  e : UInt64

-- The loop on `C('U')`; it ends at `input.w` at the latest.
def killLine : Nat → Input → Input
  | 0, i => i
  | fuel + 1, i =>
    if i.e ≠ i.w ∧ i.buf (slot (i.e - 1)) ≠ newline then killLine fuel { i with e := i.e - 1 } else i

-- The switch of `console_intr`, and whether it calls `wakeup(&input.r)`.
def intrChar (c : UInt8) (i : Input) : Input × Bool :=
  if c = C 'P'.toUInt8 then (i, false)
  else if c = C 'U'.toUInt8 then (killLine (i.e - i.w).toNat i, false)
  else if c = C 'H'.toUInt8 ∨ c = 0x7f then
    if i.e ≠ i.w then ({ i with e := i.e - 1 }, false) else (i, false)
  else if c ≠ 0 ∧ i.e - i.r < .ofNat INPUT_BUF then
    let c := if c = '\r'.toUInt8 then newline else c
    let i := { i with buf := Function.update i.buf (slot i.e) c, e := i.e + 1 }
    if c = newline ∨ c = eof ∨ i.e = i.r + .ofNat INPUT_BUF then ({ i with w := i.e }, true) else (i, false)
  else (i, false)

-- How a turn of `console_read` ends, with the bytes copied so far.
inductive Turn where
  | returned (dst : List UInt8)
  /-- In `sleep`, with `n` bytes to go. -/
  | asleep (n : Nat) (dst : List UInt8)
  /-- Returned -1. -/
  | killed (dst : List UInt8)

def Turn.dst : Turn → List UInt8
  | .returned dst | .asleep _ dst | .killed dst => dst

-- The loop of `console_read` with `n` bytes to go, from where it holds the lock.
def readLoop (killed : Bool) (target : Nat) : Nat → List UInt8 → Input → Input × Turn
  | 0, dst, i => (i, .returned dst)
  | n + 1, dst, i =>
    if i.r = i.w then (i, if killed then .killed dst else .asleep (n + 1) dst)
    else
      let c := i.buf (slot i.r)
      let i := { i with r := i.r + 1 }
      if c = eof then
        -- a read that has some bytes leaves it to the next one
        (if n + 1 < target then { i with r := i.r - 1 } else i, .returned dst)
      else if c = newline then (i, .returned (dst ++ [c]))
      else readLoop killed target n (dst ++ [c]) i

/-! ## The line as its users see it -/

structure Line where
  /-- Characters that readers have used up. -/
  used : List UInt8
  /-- Committed characters that nobody has read. -/
  unread : List UInt8
  /-- The rest, open to editing. -/
  edit : List UInt8

namespace Line

def committed (l : Line) : List UInt8 := l.used ++ l.unread

def pending (l : Line) : Nat := l.unread.length + l.edit.length

def type (c : UInt8) (l : Line) : Line :=
  if c = C 'P'.toUInt8 then l
  else if c = C 'U'.toUInt8 then { l with edit := [] }
  else if c = C 'H'.toUInt8 ∨ c = 0x7f then { l with edit := l.edit.dropLast }
  else if c = 0 ∨ INPUT_BUF ≤ l.pending then l
  else
    let c := if c = '\r'.toUInt8 then newline else c
    if c = newline ∨ c = eof ∨ l.pending + 1 = INPUT_BUF then
      { l with unread := l.unread ++ (l.edit ++ [c]), edit := [] }
    else { l with edit := l.edit ++ [c] }

theorem type_grows (l : Line) (c : UInt8) : (l.type c).used = l.used ∧ l.unread <+: (l.type c).unread := by
  unfold type
  split
  · exact ⟨rfl, List.prefix_rfl⟩
  · split
    · exact ⟨rfl, List.prefix_rfl⟩
    · split
      · exact ⟨rfl, List.prefix_rfl⟩
      · split
        · exact ⟨rfl, List.prefix_rfl⟩
        · generalize (if c = '\r'.toUInt8 then newline else c) = typed
          simp only
          split
          · exact ⟨rfl, List.prefix_append ..⟩
          · exact ⟨rfl, List.prefix_rfl⟩

theorem type_committed (l : Line) (c : UInt8) : l.committed <+: (l.type c).committed := by
  obtain ⟨used, unread⟩ := l.type_grows c
  rw [committed, committed, used]
  exact (List.prefix_append_right_inj l.used).mpr unread

end Line

/-- A reader takes what it gets from the committed characters: what it uses up, what it leaves,
and how its turn ends. -/
def takeLine (killed : Bool) (target : Nat) : Nat → List UInt8 → List UInt8 → List UInt8 × List UInt8 × Turn
  | 0, dst, unread => ([], unread, .returned dst)
  | n + 1, dst, [] => ([], [], if killed then .killed dst else .asleep (n + 1) dst)
  | n + 1, dst, c :: rest =>
    if c = eof then
      if n + 1 < target then ([], c :: rest, .returned dst) else ([c], rest, .returned dst)
    else if c = newline then ([c], rest, .returned (dst ++ [c]))
    else
      let (used, left, turn) := takeLine killed target n (dst ++ [c]) rest
      (c :: used, left, turn)

/-- The characters of a stream without the end-of-file marks. -/
def text (stream : List UInt8) : List UInt8 := stream.filter (· ≠ eof)

theorem text_append (first second : List UInt8) : text (first ++ second) = text first ++ text second :=
  List.filter_append ..

theorem text_cons {c : UInt8} (rest : List UInt8) (plain : c ≠ eof) : text (c :: rest) = c :: text rest :=
  List.filter_cons_of_pos (by simpa using plain)

theorem takeLine_splits (killed : Bool) (target n : Nat) (dst unread : List UInt8) :
    (takeLine killed target n dst unread).1 ++ (takeLine killed target n dst unread).2.1 = unread ∧
      (takeLine killed target n dst unread).2.2.dst = dst ++ text (takeLine killed target n dst unread).1 := by
  induction n generalizing dst unread with
  | zero => simp [takeLine, Turn.dst, text]
  | succ n ih =>
    cases unread with
    | nil => cases killed <;> simp [takeLine, Turn.dst, text]
    | cons c rest =>
      by_cases isEof : c = eof
      · by_cases some : n + 1 < target
        · simp [takeLine, isEof, some, Turn.dst, text]
        · simp [takeLine, isEof, some, Turn.dst, text]
      · by_cases isNewline : c = newline
        · simp only [takeLine, if_neg isEof, if_pos isNewline]
          exact ⟨rfl, by rw [text_cons _ isEof]; rfl⟩
        · obtain ⟨whole, copied⟩ := ih (dst ++ [c]) rest
          simp only [takeLine, if_neg isEof, if_neg isNewline]
          refine ⟨by rw [List.cons_append, whole], ?_⟩
          rw [copied, text_cons _ isEof, List.append_assoc]
          rfl

theorem takeLine_asleep {killed : Bool} {target n k : Nat} {dst unread used left dst' : List UInt8}
    (turn : takeLine killed target n dst unread = (used, left, .asleep k dst')) : left = [] := by
  induction n generalizing dst unread used with
  | zero => simp [takeLine] at turn
  | succ n ih =>
    cases unread with
    | nil =>
      simp only [takeLine, Prod.mk.injEq] at turn
      exact turn.2.1.symm
    | cons c rest =>
      simp only [takeLine] at turn
      split at turn
      · split at turn <;> simp at turn
      · split at turn
        · simp at turn
        · simp only [Prod.mk.injEq] at turn
          obtain ⟨_, isLeft, isTurn⟩ := turn
          exact ih (Prod.ext rfl (Prod.ext isLeft isTurn))

/-! ## The buffer holds the line -/

structure Input.Shows (i : Input) (l : Line) : Prop where
  spells : Circular.Spells input_buf_pos i.buf i.r (l.unread ++ l.edit)
  write : i.w = i.r + .ofNat l.unread.length
  edit : i.e = i.r + .ofNat (l.unread ++ l.edit).length
  /-- A newline is committed at once. -/
  editable : newline ∉ l.edit

theorem ofNat_inj {a b : Nat} (first : a ≤ INPUT_BUF) (second : b ≤ INPUT_BUF)
    (same : UInt64.ofNat a = UInt64.ofNat b) : a = b := by
  have values := congrArg UInt64.toNat same
  unfold INPUT_BUF at first second
  simp only [UInt64.toNat_ofNat'] at values
  omega

namespace Input.Shows

variable {i : Input} {l : Line}

theorem pending_le (shows : i.Shows l) : l.pending ≤ INPUT_BUF := by
  simpa [Line.pending] using shows.spells.fits

theorem empty_iff (shows : i.Shows l) : i.r = i.w ↔ l.unread = [] := by
  have fits := shows.pending_le
  rw [shows.write, UInt64.left_eq_add, ← List.length_eq_zero_iff]
  constructor
  · intro zero
    exact ofNat_inj (by unfold Line.pending at fits; omega) (Nat.zero_le _) zero
  · intro none
    rw [none]
    rfl

theorem edited_iff (shows : i.Shows l) : i.e = i.w ↔ l.edit = [] := by
  have fits := shows.pending_le
  unfold Line.pending at fits
  rw [shows.write, shows.edit, UInt64.add_right_inj, ← List.length_eq_zero_iff]
  constructor
  · intro same
    have lengths := ofNat_inj (by simpa using fits) (by omega) same
    rw [List.length_append] at lengths
    omega
  · intro none
    rw [List.length_append, none, Nat.add_zero]

theorem pending (shows : i.Shows l) : i.e - i.r = .ofNat l.pending := by
  rw [shows.edit, UInt64.add_comm, UInt64.add_sub_cancel, List.length_append]
  rfl

theorem pending_lt (shows : i.Shows l) : i.e - i.r < .ofNat INPUT_BUF ↔ l.pending < INPUT_BUF := by
  have fits := shows.pending_le
  rw [shows.pending, UInt64.lt_iff_toNat_lt]
  unfold INPUT_BUF at *
  simp only [UInt64.toNat_ofNat']
  omega

theorem back {edit : List UInt8} {c : UInt8} {used unread : List UInt8}
    (shows : i.Shows ⟨used, unread, edit ++ [c]⟩) :
    i.buf (slot (i.e - 1)) = c ∧ ({ i with e := i.e - 1 } : Input).Shows ⟨used, unread, edit⟩ := by
  have index : i.e - 1 = i.r + .ofNat (unread ++ edit).length := by
    rw [shows.edit]
    have longer : (unread ++ (edit ++ [c])).length = (unread ++ edit).length + 1 := by
      rw [← List.append_assoc, @List.length_append _ _ [c], List.length_singleton]
    rw [longer, UInt64.ofNat_add, ← UInt64.add_assoc]
    exact UInt64.add_sub_cancel _ _
  have spells : Circular.Spells input_buf_pos i.buf i.r ((unread ++ edit) ++ [c]) := by
    simpa using shows.spells
  refine ⟨?_, spells.left, shows.write, index, fun member => shows.editable (List.mem_append_left _ member)⟩
  rw [index]
  exact spells.last

theorem erase (shows : i.Shows l) :
    (if i.e ≠ i.w then ({ i with e := i.e - 1 } : Input) else i).Shows { l with edit := l.edit.dropLast } := by
  obtain ⟨used, unread, edit⟩ := l
  have edited := shows.edited_iff
  cases edit using List.reverseRecOn with
  | nil => simpa [edited.mpr rfl] using shows
  | append_singleton edit c =>
    rw [if_pos (fun same => by simpa using edited.mp same)]
    simpa using shows.back.2

theorem killed (shows : i.Shows l) : (killLine (i.e - i.w).toNat i).Shows { l with edit := [] } := by
  obtain ⟨used, unread, edit⟩ := l
  have count : (i.e - i.w).toNat = edit.length := by
    have fits := shows.pending_le
    simp only [Line.pending] at fits
    rw [shows.edit, shows.write, List.length_append, UInt64.ofNat_add, ← UInt64.add_assoc,
      UInt64.add_comm _ (UInt64.ofNat edit.length), UInt64.add_sub_cancel]
    unfold INPUT_BUF at fits
    simp only [UInt64.toNat_ofNat']
    omega
  rw [count]
  -- on the line, from its end
  clear count
  induction edit using List.reverseRecOn generalizing i with
  | nil => exact shows
  | append_singleton edit c ih =>
    obtain ⟨last, shorter⟩ := shows.back
    have notNewline : c ≠ newline := by
      rintro rfl
      exact shows.editable (by simp)
    have edited : i.e ≠ i.w := fun same => by simpa using shows.edited_iff.mp same
    rw [List.length_append, List.length_singleton, killLine, if_pos ⟨edited, last ▸ notNewline⟩]
    exact ih shorter

theorem push (shows : i.Shows l) (room : l.pending < INPUT_BUF) (c : UInt8) :
    let j : Input := { i with buf := Function.update i.buf (slot i.e) c, e := i.e + 1 }
    ({ j with w := j.e } : Input).Shows { l with unread := l.unread ++ (l.edit ++ [c]), edit := [] } ∧
      (c ≠ newline → j.Shows { l with edit := l.edit ++ [c] }) ∧
        (j.e = j.r + .ofNat INPUT_BUF ↔ l.pending + 1 = INPUT_BUF) := by
  have length : (l.unread ++ l.edit).length < INPUT_BUF := by simpa [Line.pending] using room
  have spells := shows.spells.push (by decide) length c
  have written : i.e + 1 = i.r + .ofNat ((l.unread ++ l.edit) ++ [c]).length := by
    rw [shows.edit, @List.length_append _ _ [c], List.length_singleton, UInt64.ofNat_add, ← UInt64.add_assoc]
    rfl
  have cell : slot i.e = Circular.slot input_buf_pos (i.r + .ofNat (l.unread ++ l.edit).length) := by
    rw [shows.edit]
    rfl
  rw [← cell] at spells
  refine ⟨⟨?_, ?_, ?_, by simp⟩, fun plain => ⟨?_, shows.write, ?_, ?_⟩, ?_⟩
  · simpa using spells
  · simpa using written
  · simpa using written
  · simpa using spells
  · simpa using written
  · intro member
    rcases List.mem_append.mp member with old | new
    · exact shows.editable old
    · exact plain (List.mem_singleton.mp new).symm
  · rw [written, UInt64.add_right_inj]
    have total : ((l.unread ++ l.edit) ++ [c]).length = l.pending + 1 := by
      simp [Line.pending]
      omega
    rw [total]
    exact ⟨fun same => ofNat_inj room (Nat.le_refl _) same, fun same => congrArg UInt64.ofNat same⟩

/-- The switch of `console_intr` types a character, and wakes the readers if it commits something. -/
theorem intrChar (shows : i.Shows l) (c : UInt8) :
    (Console.intrChar c i).1.Shows (l.type c) ∧
      ((Console.intrChar c i).2 = false → (l.type c).unread = l.unread) := by
  unfold Console.intrChar Line.type
  split
  · exact ⟨shows, fun _ => rfl⟩
  · split
    · exact ⟨shows.killed, fun _ => rfl⟩
    · split
      · have erased := shows.erase
        split at erased
        · rename_i edited
          rw [if_pos edited]
          exact ⟨erased, fun _ => rfl⟩
        · rename_i edited
          rw [if_neg edited]
          exact ⟨erased, fun _ => rfl⟩
      · by_cases room : c ≠ 0 ∧ l.pending < INPUT_BUF
        · have enough : ¬ (c = 0 ∨ INPUT_BUF ≤ l.pending) := by
            rintro (zero | full)
            · exact room.1 zero
            · exact absurd room.2 (Nat.not_lt.mpr full)
          rw [if_pos ⟨room.1, shows.pending_lt.mpr room.2⟩, if_neg enough]
          obtain ⟨committed, added, full⟩ := shows.push room.2 (if c = '\r'.toUInt8 then newline else c)
          generalize (if c = '\r'.toUInt8 then newline else c) = typed at committed added full ⊢
          simp only at committed added full ⊢
          simp only [full]
          split
          · exact ⟨committed, by simp⟩
          · rename_i kept
            simp only [not_or] at kept
            exact ⟨added kept.1, fun _ => rfl⟩
        · have dropped : c = 0 ∨ INPUT_BUF ≤ l.pending := by
            by_contra both
            rw [not_or, Nat.not_le] at both
            exact room both
          rw [if_neg (fun accepted => room ⟨accepted.1, shows.pending_lt.mp accepted.2⟩), if_pos dropped]
          exact ⟨shows, fun _ => rfl⟩

theorem front {c : UInt8} {used unread edit : List UInt8} (shows : i.Shows ⟨used, c :: unread, edit⟩) :
    i.buf (slot i.r) = c ∧ ({ i with r := i.r + 1 } : Input).Shows ⟨used ++ [c], unread, edit⟩ := by
  refine ⟨shows.spells.head, shows.spells.tail, ?_, ?_, shows.editable⟩
  · rw [shows.write]
    simp only [List.length_cons]
    rw [Nat.add_comm, UInt64.ofNat_add, ← UInt64.add_assoc]
    rfl
  · rw [shows.edit]
    simp only [List.cons_append, List.length_cons]
    rw [Nat.add_comm, UInt64.ofNat_add, ← UInt64.add_assoc]
    rfl

/-- A turn of `console_read` does on the buffer what its reader does on the line. -/
theorem readLoop {used unread edit : List UInt8} (shows : i.Shows ⟨used, unread, edit⟩) (killed : Bool)
    (target n : Nat) (dst : List UInt8) :
    (Console.readLoop killed target n dst i).2 = (takeLine killed target n dst unread).2.2 ∧
      (Console.readLoop killed target n dst i).1.Shows
        ⟨used ++ (takeLine killed target n dst unread).1, (takeLine killed target n dst unread).2.1, edit⟩ := by
  induction n generalizing i dst used unread with
  | zero => exact ⟨rfl, by simpa [takeLine, Console.readLoop] using shows⟩
  | succ n ih =>
    have empty := shows.empty_iff
    cases unread with
    | nil =>
      rw [Console.readLoop, if_pos (empty.mpr rfl)]
      exact ⟨rfl, by simpa [takeLine] using shows⟩
    | cons c rest =>
      obtain ⟨isFront, shorter⟩ := shows.front
      rw [Console.readLoop, if_neg (fun same => by simpa using empty.mp same)]
      simp only [isFront]
      by_cases isEof : c = eof
      · by_cases some : n + 1 < target
        · simp only [takeLine, if_pos isEof, if_pos some, List.append_nil]
          refine ⟨trivial, ?_⟩
          have unreadAgain : i.r + 1 - 1 = i.r := UInt64.add_sub_cancel i.r 1
          rw [unreadAgain]
          exact shows
        · simp only [takeLine, if_pos isEof, if_neg some]
          exact ⟨trivial, shorter⟩
      · by_cases isNewline : c = newline
        · simp only [takeLine, if_neg isEof, if_pos isNewline]
          exact ⟨trivial, shorter⟩
        · simp only [takeLine, if_neg isEof, if_neg isNewline]
          have later := ih shorter (dst ++ [c])
          simpa using later

theorem readLoop_eof {used rest edit : List UInt8} (shows : i.Shows ⟨used, eof :: rest, edit⟩) (killed : Bool)
    (target n : Nat) (dst : List UInt8) :
    Console.readLoop killed target (n + 1) dst i =
      (if n + 1 < target then i else { i with r := i.r + 1 }, .returned dst) := by
  have front := shows.front.1
  have unreadAgain : i.r + 1 - 1 = i.r := UInt64.add_sub_cancel i.r 1
  rw [Console.readLoop, if_neg (fun same => by simpa using shows.empty_iff.mp same)]
  simp only [front, if_pos, unreadAgain]

end Input.Shows

end Xv6.Console
