import Columnar.Proofs.Kernel.Mask
import Mathlib.Logic.Relation

/-!
# Workers on shared bytes

The bulk passes of a column run at the same time, one worker to a chunk, on the bytes of
one bitmap.  A worker goes through its masks in order; it loads a byte in one step and
stores what the mask keeps of it in another, and other workers may move in between.  A
worker that works on a byte which does not exist is stuck.

Masks commute, so an order of whole masks never matters (`ByteMask.applyAll_perm`).  A load
and the store behind it are safe only as long as nobody else stores to the byte, which is
what `Crew.Separate` says: no two masks that are yet to be stored go to the same byte.

* `Crew.Separate.step`, `Crew.Separate.run` -- the invariant, and what the bytes will be in
  the end, survive every step and so every run.
* `Crew.Separate.exists_step`, `Crew.Step.work_lt` -- workers that are not finished can move,
  and never move forever.
* `Crew.Separate.bytes_eq` -- when all workers are finished the bytes are those that the masks
  give one after the other, whatever the workers did in which order.
-/

namespace Columnar

/-- A worker: the masks that it has not stored, and the byte that it has loaded for the
first of them. -/
structure Worker where
  held : Option UInt8 := none
  todo : List ByteMask

/-- Workers on the same bytes. -/
structure Crew where
  bytes : Array UInt8
  workers : List Worker

namespace Crew

/-- A worker for each list of masks, before the first step. -/
def start (bytes : Array UInt8) (passes : List (List ByteMask)) : Crew where
  bytes := bytes
  workers := passes.map fun todo => { todo }

/-- The masks that are yet to be stored. -/
def pending (c : Crew) : List ByteMask :=
  c.workers.flatMap Worker.todo

/-- Some worker makes one step. -/
inductive Step : Crew → Crew → Prop
  /-- A worker loads the byte of its next mask. -/
  | load {bytes : Array UInt8} {before after : List Worker} {m : ByteMask}
      {rest : List ByteMask} {byte : UInt8} (hByte : bytes[m.index]? = some byte) :
      Step ⟨bytes, before ++ ⟨none, m :: rest⟩ :: after⟩
        ⟨bytes, before ++ ⟨some byte, m :: rest⟩ :: after⟩
  /-- A worker stores what its mask keeps of the byte that it has loaded. -/
  | store {bytes : Array UInt8} {before after : List Worker} {m : ByteMask}
      {rest : List ByteMask} {byte : UInt8} :
      Step ⟨bytes, before ++ ⟨some byte, m :: rest⟩ :: after⟩
        ⟨bytes.setIfInBounds m.index (byte &&& m.keep), before ++ ⟨none, rest⟩ :: after⟩

/-- Any number of steps. -/
def Reaches : Crew → Crew → Prop :=
  Relation.ReflTransGen Step

/-- Loads and stores that are left, with one more for a worker that holds no byte. -/
def work (c : Crew) : Nat :=
  total (c.workers.map fun w => 2 * w.todo.length + if w.held.isNone then 1 else 0)

/-- No two masks that are yet to be stored go to the same byte, all of them go to bytes that
exist, and a byte that a worker holds is still the one in place. -/
structure Separate (c : Crew) : Prop where
  nodup : (c.pending.map ByteMask.index).Nodup
  lt_size : ∀ m ∈ c.pending, m.index < c.bytes.size
  held : ∀ w ∈ c.workers, ∀ byte, w.held = some byte →
    ∃ m rest, w.todo = m :: rest ∧ c.bytes[m.index]? = some byte

theorem pending_start (bytes : Array UInt8) (passes : List (List ByteMask)) :
    (start bytes passes).pending = passes.flatten := by
  rw [pending, start, List.flatMap_map, List.flatMap_def, List.map_id'']
  exact fun _ => rfl

theorem separate_start {bytes : Array UInt8} {passes : List (List ByteMask)}
    (hNodup : (passes.flatten.map ByteMask.index).Nodup)
    (hSize : ∀ m ∈ passes.flatten, m.index < bytes.size) : (start bytes passes).Separate where
  nodup := by rwa [pending_start]
  lt_size := by rwa [pending_start]
  held w hw byte hHeld := by
    obtain ⟨todo, -, rfl⟩ := List.mem_map.mp hw
    exact absurd hHeld (by simp)

variable {c c' : Crew}

/-- Every step leaves less to do. -/
theorem Step.work_lt (h : Step c c') : c'.work < c.work := by
  cases h with
  | load => simp [work]
  | store =>
      simp only [work, List.map_append, List.map_cons, total_append, total_cons,
        List.length_cons, Option.isNone_some, Option.isNone_none, Bool.false_eq_true,
        if_true, if_false]
      omega

/-- The workers beside one worker. -/
theorem mem_insert_iff {before after : List Worker} {w other : Worker} :
    other ∈ before ++ w :: after ↔ other = w ∨ other ∈ before ++ after := by
  simp only [List.mem_append, List.mem_cons]
  exact or_left_comm

/-- A worker that loads the byte of its mask has the byte in place, and nothing else
changes. -/
theorem Separate.load {bytes : Array UInt8} {before after : List Worker} {m : ByteMask}
    {rest : List ByteMask} {byte : UInt8}
    (h : Separate ⟨bytes, before ++ ⟨none, m :: rest⟩ :: after⟩)
    (hByte : bytes[m.index]? = some byte) :
    Separate ⟨bytes, before ++ ⟨some byte, m :: rest⟩ :: after⟩ where
  nodup := by simpa [pending] using h.nodup
  lt_size := by simpa [pending] using h.lt_size
  held w hw held hHeld := by
    rcases mem_insert_iff.mp hw with rfl | hOther
    · exact ⟨m, rest, rfl, Option.some.inj hHeld ▸ hByte⟩
    · exact h.held w (mem_insert_iff.mpr (.inr hOther)) held hHeld

/-- The mask that a worker stores next may as well come first of all masks. -/
theorem perm_pending {bytes bytes' : Array UInt8} {before after : List Worker}
    {held held' : Option UInt8} {m : ByteMask} {rest : List ByteMask} :
    (⟨bytes, before ++ ⟨held, m :: rest⟩ :: after⟩ : Crew).pending.Perm
      (m :: (⟨bytes', before ++ ⟨held', rest⟩ :: after⟩ : Crew).pending) := by
  simp only [pending, List.flatMap_append, List.flatMap_cons, List.cons_append]
  exact List.perm_middle

/-- A worker that stores what its mask keeps applies the mask, and no other worker holds the
byte that it stores to. -/
theorem Separate.store {bytes : Array UInt8} {before after : List Worker} {m : ByteMask}
    {rest : List ByteMask} {byte : UInt8}
    (h : Separate ⟨bytes, before ++ ⟨some byte, m :: rest⟩ :: after⟩) :
    bytes.setIfInBounds m.index (byte &&& m.keep) = ByteMask.apply bytes m ∧
      Separate ⟨bytes.setIfInBounds m.index (byte &&& m.keep),
        before ++ ⟨none, rest⟩ :: after⟩ := by
  obtain ⟨_, _, hTodo, hByte⟩ := h.held ⟨some byte, m :: rest⟩ (by simp) byte rfl
  obtain ⟨rfl, rfl⟩ := List.cons.inj hTodo
  refine ⟨ByteMask.setIfInBounds_eq_apply hByte, ?_⟩
  have hPerm : (Crew.mk bytes (before ++ ⟨some byte, m :: rest⟩ :: after)).pending.Perm
      (m :: (Crew.mk (bytes.setIfInBounds m.index (byte &&& m.keep))
        (before ++ ⟨none, rest⟩ :: after)).pending) := perm_pending
  have hNodup := (hPerm.map ByteMask.index).nodup_iff.mp h.nodup
  rw [List.map_cons, List.nodup_cons] at hNodup
  constructor
  case nodup => exact hNodup.2
  case lt_size =>
    intro other hOther
    rw [Array.size_setIfInBounds]
    exact h.lt_size other (hPerm.mem_iff.mpr (List.mem_cons_of_mem _ hOther))
  case held =>
    intro w hw held hHeld
    rcases mem_insert_iff.mp hw with rfl | hElse
    · exact absurd hHeld (by simp)
    · obtain ⟨other, others, hTodo', hOther⟩ :=
        h.held w (mem_insert_iff.mpr (.inr hElse)) held hHeld
      have hMem : other.index ∈ (Crew.mk (bytes.setIfInBounds m.index (byte &&& m.keep))
          (before ++ ⟨none, rest⟩ :: after)).pending.map ByteMask.index :=
        List.mem_map_of_mem (List.mem_flatMap.mpr ⟨w, hw, by simp [hTodo']⟩)
      have hFresh : m.index ≠ other.index := fun hSame => hNodup.1 (hSame ▸ hMem)
      exact ⟨other, others, hTodo', by rw [Array.getElem?_setIfInBounds_ne hFresh]; exact hOther⟩

/-- One step of workers that keep apart: they still do, and what the masks will make of the
bytes in the end is the same. -/
theorem Separate.step (h : c.Separate) (hStep : Step c c') :
    c'.Separate ∧
      ByteMask.applyAll c'.bytes c'.pending = ByteMask.applyAll c.bytes c.pending := by
  cases hStep with
  | load hByte => exact ⟨h.load hByte, by simp [pending]⟩
  | store =>
      obtain ⟨hBytes, hSeparate⟩ := h.store
      refine ⟨hSeparate, ?_⟩
      rw [ByteMask.applyAll_perm perm_pending, hBytes]
      rfl

/-- A run of workers that keep apart. -/
theorem Separate.run (h : c.Separate) (hRun : Reaches c c') :
    c'.Separate ∧
      ByteMask.applyAll c'.bytes c'.pending = ByteMask.applyAll c.bytes c.pending := by
  induction hRun with
  | refl => exact ⟨h, rfl⟩
  | tail _ hStep ih =>
      obtain ⟨hSeparate, hBytes⟩ := ih.1.step hStep
      exact ⟨hSeparate, hBytes.trans ih.2⟩

/-- Some worker can move as long as a mask is left: a worker that holds a byte can store it,
and one that holds none can load the byte of its mask. -/
theorem Separate.exists_step (h : c.Separate) (hPending : c.pending ≠ []) :
    ∃ c', Step c c' := by
  obtain ⟨bytes, workers⟩ := c
  obtain ⟨m, hm⟩ := List.exists_mem_of_ne_nil _ hPending
  obtain ⟨⟨held, todo⟩, hw, hTodo⟩ := List.mem_flatMap.mp hm
  obtain ⟨before, after, rfl⟩ := List.append_of_mem hw
  cases todo with
  | nil => exact absurd hTodo (by simp)
  | cons next rest =>
      cases held with
      | some byte => exact ⟨_, .store⟩
      | none =>
          have hNext : next.index < bytes.size := h.lt_size next (by simp [pending])
          exact ⟨_, .load (Array.getElem?_eq_getElem hNext)⟩

/-- Workers without a mask do not move. -/
theorem not_step_of_pending (h : c.pending = []) (next : Crew) : ¬ Step c next := by
  intro hStep
  cases hStep with
  | load => simp [pending] at h
  | store => simp [pending] at h

/-- Workers that keep apart come to an end. -/
theorem Separate.exists_finished {c : Crew} (h : c.Separate) :
    ∃ c', Reaches c c' ∧ c'.pending = [] := by
  by_cases hPending : c.pending = []
  · exact ⟨c, .refl, hPending⟩
  · obtain ⟨next, hStep⟩ := h.exists_step hPending
    have hWork := hStep.work_lt
    obtain ⟨c', hRun, hFinished⟩ := (h.step hStep).1.exists_finished
    exact ⟨c', .head hStep hRun, hFinished⟩
termination_by c.work

/-- Workers that have kept apart and can no longer move have stored all their masks, and the
bytes are those that the masks give one after the other. -/
theorem Separate.bytes_eq (h : c.Separate) (hRun : Reaches c c')
    (hEnd : ∀ next, ¬ Step c' next) :
    c'.pending = [] ∧ c'.bytes = ByteMask.applyAll c.bytes c.pending := by
  obtain ⟨hSeparate, hBytes⟩ := h.run hRun
  have hFinished : c'.pending = [] := by
    by_contra hPending
    obtain ⟨next, hStep⟩ := hSeparate.exists_step hPending
    exact hEnd next hStep
  rw [hFinished] at hBytes
  exact ⟨hFinished, hBytes⟩

end Crew

end Columnar
