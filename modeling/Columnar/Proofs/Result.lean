import Columnar.Error

/-!
# Sequencing fallible operations

When a sequence of fallible operations succeeds, each of them did.  The lemmas here
take a successful run apart, for one step, for a step per element and for a check per
element.  A sequence that is refused is refused by the first of its operations that refuses,
and `Result.error?` is that refusal.
-/

namespace Columnar.Result

variable {α β : Type}

theorem bind_eq_ok_iff {x : Result α} {f : α → Result β} {b : β} :
    (x >>= f) = .ok b ↔ ∃ a, x = .ok a ∧ f a = .ok b := by
  cases x <;> simp [bind, Except.bind]

/-- A sequence is refused by its first operation or by what follows the answer of it. -/
theorem bind_eq_error_iff {x : Result α} {f : α → Result β} {e : Error} :
    (x >>= f) = .error e ↔ x = .error e ∨ ∃ a, x = .ok a ∧ f a = .error e := by
  cases x <;> simp [bind, Except.bind]

theorem ok_bind (a : α) (f : α → Result β) : ((.ok a : Result α) >>= f) = f a := rfl

theorem throw_bind (e : Error) (f : α → Result β) :
    ((throw e : Result α) >>= f) = .error e := rfl

theorem throw_ne_ok (e : Error) (a : α) : (throw e : Result α) ≠ .ok a := nofun

/-- A traversal succeeds with the answers of its elements. -/
theorem mapM_eq_ok_iff {f : α → Result β} {l : List α} {out : List β} :
    l.mapM f = .ok out ↔ l.map f = out.map .ok := by
  induction l generalizing out with
  | nil =>
      cases out <;> simp [pure, Except.pure]
  | cons a rest ih =>
      rw [List.mapM_cons, bind_eq_ok_iff]
      constructor
      · rintro ⟨b, hHead, hRest⟩
        obtain ⟨bs, hTail, hOut⟩ := bind_eq_ok_iff.mp hRest
        obtain rfl := Except.ok.inj hOut
        rw [List.map_cons, hHead, ih.mp hTail, List.map_cons]
      · intro h
        cases out with
        | nil => exact absurd h (by simp)
        | cons b bs =>
            rw [List.map_cons, List.map_cons, List.cons.injEq] at h
            exact ⟨b, h.1, bind_eq_ok_iff.mpr ⟨bs, ih.mpr h.2, rfl⟩⟩

theorem mapM_eq_ok_map {f : α → Result β} {g : α → β} {l : List α}
    (h : ∀ a ∈ l, f a = .ok (g a)) : l.mapM f = .ok (l.map g) := by
  rw [mapM_eq_ok_iff, List.map_map]
  exact List.map_congr_left h

/-- A traversal succeeds when every element does. -/
theorem exists_mapM_eq_ok {f : α → Result β} {l : List α} (h : ∀ a ∈ l, ∃ b, f a = .ok b) :
    ∃ out, l.mapM f = .ok out := by
  induction l with
  | nil => exact ⟨[], rfl⟩
  | cons a rest ih =>
      obtain ⟨b, hHead⟩ := h a List.mem_cons_self
      obtain ⟨bs, hTail⟩ := ih fun other hOther => h other (List.mem_cons_of_mem _ hOther)
      exact ⟨b :: bs, by rw [List.mapM_cons, hHead, ok_bind, hTail]; rfl⟩

/-- The answers of a traversal are the answers of its elements. -/
theorem mem_of_mapM_eq_ok {f : α → Result β} {l : List α} {out : List β}
    (h : l.mapM f = .ok out) (b : β) : b ∈ out ↔ ∃ a ∈ l, f a = .ok b := by
  have hAnswers := mapM_eq_ok_iff.mp h
  rw [← List.mem_map, hAnswers]
  simp

/-- Only the answers of the elements count in a traversal. -/
theorem mapM_eq_of_map_eq {γ : Type} {f : α → Result β} {g : γ → Result β} {l : List α}
    {l' : List γ} (h : l.map f = l'.map g) : l.mapM f = l'.mapM g := by
  have hLeft : (l.map f).mapM id = l.mapM f := List.mapM_map
  have hRight : (l'.map g).mapM id = l'.mapM g := List.mapM_map
  rw [← hLeft, ← hRight, h]

theorem foldlM_congr {f g : β → α → Result β} {l : List α} (h : ∀ b, ∀ a ∈ l, f b a = g b a)
    (b : β) : l.foldlM f b = l.foldlM g b := by
  induction l generalizing b with
  | nil => rfl
  | cons a rest ih =>
      rw [List.foldlM_cons, List.foldlM_cons, h b a List.mem_cons_self]
      exact congrArg _ (funext fun b' => ih (fun b'' other hOther =>
        h b'' other (List.mem_cons_of_mem _ hOther)) b')

/-- Steps that succeed as long as an invariant holds, and keep it, make a run that
succeeds. -/
theorem foldlM_eq_ok_foldl {f : β → α → Result β} {g : β → α → β} (Inv : β → Prop)
    {l : List α} (hStep : ∀ b, ∀ a ∈ l, Inv b → f b a = .ok (g b a) ∧ Inv (g b a)) {b : β}
    (hInv : Inv b) : l.foldlM f b = .ok (l.foldl g b) ∧ Inv (l.foldl g b) := by
  induction l generalizing b with
  | nil => exact ⟨rfl, hInv⟩
  | cons a rest ih =>
      obtain ⟨hHead, hNext⟩ := hStep b a List.mem_cons_self hInv
      rw [List.foldlM_cons, hHead, ok_bind, List.foldl_cons]
      exact ih (fun b' other hOther => hStep b' other (List.mem_cons_of_mem _ hOther)) hNext

/-- What every step keeps is kept by a run that succeeds. -/
theorem foldlM_eq_ok_induction {f : β → α → Result β} (Inv : β → Prop) {l : List α}
    (hStep : ∀ b, ∀ a ∈ l, ∀ b', Inv b → f b a = .ok b' → Inv b') {b b' : β} (hInv : Inv b)
    (h : l.foldlM f b = .ok b') : Inv b' := by
  induction l generalizing b with
  | nil =>
      obtain rfl := Except.ok.inj h
      exact hInv
  | cons a rest ih =>
      rw [List.foldlM_cons] at h
      obtain ⟨mid, hHead, hRest⟩ := bind_eq_ok_iff.mp h
      exact ih (fun b a' hMem => hStep b a' (List.mem_cons_of_mem _ hMem))
        (hStep b a List.mem_cons_self mid hInv hHead) hRest

/-- A traversal by operations that succeed picks what the operations answer. -/
theorem mapM_eq_ok_filterMap {f : α → Result β} {g : α → Option β} {l : List α}
    (h : ∀ a ∈ l, ∃ b, f a = .ok b ∧ g a = some b) : l.mapM f = .ok (l.filterMap g) := by
  induction l with
  | nil => rfl
  | cons a rest ih =>
      obtain ⟨⟨b, hHead, hPick⟩, hRest⟩ := List.forall_mem_cons.mp h
      rw [List.mapM_cons, hHead, ok_bind, ih hRest, List.filterMap_cons_some hPick]
      rfl

/-- A check of every element succeeds when each check does. -/
theorem forM_eq_ok_iff {f : α → Result Unit} {l : List α} :
    l.forM f = .ok () ↔ ∀ a ∈ l, f a = .ok () := by
  induction l with
  | nil => simp [pure, Except.pure]
  | cons a rest ih =>
      show (f a >>= fun _ => rest.forM f) = .ok () ↔ _
      rw [bind_eq_ok_iff, List.forall_mem_cons, ← ih]
      exact ⟨fun ⟨_, hHead, hRest⟩ => ⟨hHead, hRest⟩, fun h => ⟨(), h.1, h.2⟩⟩

/-- Why an operation is refused, if it is. -/
def error? : Result α → Option Error
  | .ok _ => none
  | .error e => some e

theorem error?_eq_some_iff {x : Result α} {e : Error} : error? x = some e ↔ x = .error e := by
  cases x <;> simp [error?]

theorem error?_eq_none_iff {x : Result α} : error? x = none ↔ ∃ a, x = .ok a := by
  cases x <;> simp [error?]

theorem error?_bind_ok (x : Result α) (f : α → β) :
    error? (x >>= fun a => .ok (f a)) = error? x := by
  cases x <;> rfl

/-- Of two operations the first one that is refused counts. -/
theorem error?_bind_bind_ok {γ : Type} (x : Result α) (y : Result β) (f : α → β → γ) :
    error? (x >>= fun a => y >>= fun b => .ok (f a b)) = (error? x).or (error? y) := by
  cases x <;> cases y <;> rfl

/-- The first check that is refused is the refusal of all of them. -/
theorem error?_forM (f : α → Result Unit) (l : List α) :
    error? (l.forM f) = l.findSome? fun a => error? (f a) := by
  induction l with
  | nil => rfl
  | cons a rest ih =>
      show error? (f a >>= fun _ => rest.forM f) = _
      rw [List.findSome?_cons, ← ih]
      cases f a <;> rfl

/-- The first operation that is refused is the refusal of a traversal. -/
theorem error?_mapM (f : α → Result β) (l : List α) :
    error? (l.mapM f) = l.findSome? fun a => error? (f a) := by
  induction l with
  | nil => rfl
  | cons a rest ih =>
      rw [List.mapM_cons, List.findSome?_cons, ← ih]
      cases f a with
      | error e => rfl
      | ok b => cases rest.mapM f <;> rfl

end Columnar.Result
