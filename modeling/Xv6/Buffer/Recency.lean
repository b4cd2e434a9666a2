import Xv6.Buffer.Invariant
import Xv6.Library.Recency
import Xv6.Library.Observation

/-! Which buffer a miss recycles.

A buffer is released when `brelse` drops its last reference. The list of buffers stays in the order
of their last releases, so that `bget` recycles the one whose last release is the earliest. A
reference that `bunpin` drops does not move the buffer.
-/

set_option autoImplicit false

namespace Xv6.Buffer

open Library

variable {Pid : Type} {s t : State Pid} {a : Act Pid} {seen : List (Fin nbuf)}

def released (a : Act Pid) (s : State Pid) : Option (Fin nbuf) :=
  match a with
  | .unref h => if (s.cache.buf h.buf).refcnt = 1 then some h.buf else none
  | _ => none

-- The buffers, the latest release first. Those that were never released come as `binit` lists them.
def recency (seen : List (Fin nbuf)) : List (Fin nbuf) := seen.reverse ++ (List.finRange nbuf).reverse

structure Recorded (seen : List (Fin nbuf)) (s : State Pid) : Prop where
  inv : Inv s
  order : ∃ xs, s.cache.Ordered xs ∧ ByRecency (recency seen) xs

theorem recency_append (o : Option (Fin nbuf)) : recency (seen ++ o.toList) = o.toList ++ recency seen := by
  cases o with
  | none => rw [Option.toList_none, List.append_nil, List.nil_append]
  | some i =>
    rw [recency, recency, Option.toList_some, List.reverse_append, List.append_assoc]
    rfl

theorem last_reference (n : UInt32) : n - 1 = 0 ↔ n = 1 := by
  rw [UInt32.sub_eq_iff_eq_add, UInt32.zero_add]

theorem recorded_start (disk : UInt32 → Block) : Recorded [] (start disk : State Pid) where
  inv := inv_start disk
  order := ⟨_, Bcache.Ordered.binit, ByRecency.refl (List.nodup_reverse.mpr (List.nodup_finRange nbuf))⟩

-- What `bget` chooses after the releases `seen`.
def Chooses (seen : List (Fin nbuf)) (c : Bcache Pid) (dev blockno : UInt32) : Option (Fin nbuf × Bcache Pid) → Prop
  | some (i, d) =>
    (c.caches dev blockno i = true ∧ d = c.modify i Bcache.addref) ∨
      ((∀ j, c.caches dev blockno j = false) ∧ (c.buf i).refcnt = 0 ∧ d = c.modify i (Bcache.recycle dev blockno) ∧
        ∀ j, (c.buf j).refcnt = 0 → (recency seen).idxOf j ≤ (recency seen).idxOf i)
  | none => ∀ j, c.caches dev blockno j = false ∧ (c.buf j).refcnt ≠ 0

theorem Recorded.chooses (recorded : Recorded seen s) (dev blockno : UInt32) :
    Chooses seen s.cache dev blockno (s.cache.bget dev blockno) := by
  obtain ⟨xs, ordered, recent⟩ := recorded.order
  rw [ordered.bget_eq]
  cases hit : xs.find? (s.cache.caches dev blockno) with
  | some i => exact .inl ⟨List.find?_some hit, rfl⟩
  | none =>
    have absent : ∀ j, s.cache.caches dev blockno j = false := fun j =>
      Bool.eq_false_iff.mpr (List.find?_eq_none.mp hit j (ordered.full j))
    cases spare : xs.reverse.find? s.cache.unreferenced with
    | some i =>
      have idle : s.cache.unreferenced i = true := List.find?_some spare
      refine .inr ⟨absent, of_decide_eq_true idle, rfl, fun j idle => ?_⟩
      exact recent.oldest spare (ordered.full j) (decide_eq_true idle)
    | none =>
      refine fun j => ⟨absent j, fun idle => ?_⟩
      exact List.find?_eq_none.mp spare j (List.mem_reverse.mpr (ordered.full j)) (decide_eq_true idle)

section
variable [DecidableEq Pid]

theorem step_links (inv : Inv s) (stays : ∀ h, a ≠ .unref h) (stepped : step a s = some t) :
    t.cache.links = s.cache.links := by
  cases a with
  | bget pid dev blockno =>
    obtain ⟨xs, ordered⟩ := inv.ordered
    obtain ⟨i, cache, found, rfl⟩ := step_bget stepped
    rcases ordered.bget_cases found with ⟨_, _, rfl⟩ | ⟨_, _, rfl⟩
    · rfl
    · rfl
  | acquiresleep h =>
    obtain ⟨_, _, rfl⟩ := step_acquiresleep stepped
    rfl
  | fill h =>
    obtain ⟨_, rfl⟩ := step_fill (inv.entry h.buf).clean stepped
    rfl
  | modify h data =>
    obtain ⟨_, rfl⟩ := step_modify stepped
    rfl
  | bwrite h =>
    obtain ⟨_, _, rfl⟩ := step_bwrite stepped
    rfl
  | releasesleep h =>
    obtain ⟨_, _, rfl⟩ := step_releasesleep stepped
    rfl
  | unref h => exact absurd rfl (stays h)
  | bpin i =>
    cases stepped
    rfl
  | bunpin i =>
    cases stepped
    rfl

theorem Recorded.step (recorded : Recorded seen s) (stepped : step a s = some t) :
    Recorded (seen ++ (released a s).toList) t := by
  refine ⟨inv_step recorded.inv stepped, ?_⟩
  obtain ⟨xs, ordered, recent⟩ := recorded.order
  rw [recency_append]
  cases a with
  | unref h =>
    obtain ⟨_, cache, dropped, rfl⟩ := step_unref stepped
    rw [released]
    by_cases last : (s.cache.buf h.buf).refcnt = 1
    · obtain ⟨before, after, rfl⟩ := List.append_of_mem (ordered.full h.buf)
      obtain ⟨d, drops, reordered, _⟩ := Bcache.Ordered.unref_last ordered ((last_reference _).mpr last)
      cases dropped.symm.trans drops
      rw [if_pos last]
      exact ⟨_, reordered, recent.moved ordered.nodup⟩
    · have drops := Bcache.Ordered.unref_shared (c := s.cache) (mt (last_reference _).mp last)
      cases dropped.symm.trans drops
      rw [if_neg last]
      exact ⟨xs, ordered.of_links rfl, recent⟩
  | _ =>
    have links := step_links recorded.inv (fun h same => by cases same) stepped
    exact ⟨xs, ordered.of_links links, recent⟩

/-- After `binit`, under every interleaving, `bget` returns the buffer that has the block, or recycles the
unreferenced buffer whose last release is the earliest, and panics when no buffer is unreferenced. -/
theorem recycles_oldest {disk : UInt32 → Block} {acts : List (Act Pid)}
    (ran : run Buffer.step acts (start disk) = some s) (dev blockno : UInt32) :
    Chooses (observed Buffer.step released acts (start disk)) s.cache dev blockno (s.cache.bget dev blockno) := by
  have recorded : Recorded ([] ++ observed Buffer.step released acts (start disk)) s :=
    run_history (fun _ _ _ _ recorded stepped => recorded.step stepped) (recorded_start disk) ran
  exact recorded.chooses dev blockno

end

/-- A buffer that was released is not the first to be recycled. -/
theorem recycles_oldest_second : ∃ s, run step (Hold.bread ⟨1, 0, 1, 5, .held⟩ ++ Hold.brelse ⟨1, 0, 1, 5, .held⟩)
      (start fun _ => Block.zero) = some s ∧ (s.cache.bget 1 6).map Prod.fst = some 1 ∧
    Chooses [0] s.cache 1 6 (s.cache.bget 1 6) := by
  have returns : (run step (Hold.bread ⟨1, 0, 1, 5, .held⟩ ++ Hold.brelse ⟨1, 0, 1, 5, .held⟩)
      (start fun _ => Block.zero)).any (fun s => decide ((s.cache.bget 1 6).map Prod.fst = some 1)) = true := by
    decide +kernel
  obtain ⟨s, ran, second⟩ := (Option.any_eq_true _ _).mp returns
  have seen : observed step released (Hold.bread ⟨1, 0, 1, 5, .held⟩ ++ Hold.brelse ⟨1, 0, 1, 5, .held⟩)
      (start fun _ => Block.zero) = [0] := by decide +kernel
  have chooses := recycles_oldest ran 1 6
  rw [seen] at chooses
  exact ⟨s, ran, of_decide_eq_true second, chooses⟩

end Xv6.Buffer
