import Columnar.Proofs.Table.Lookup

/-!
# Projections of schemas

A projection of a schema looks the names up first and puts the fields that it found together
afterwards.  So an unknown name is refused before a name that is repeated, wherever the two
stand.  What is left is the fields of the names, in the order of the names.

* `exists_of_firstRepeat` -- where the first name stands that repeats an earlier one.
* `lookup_of_recordNames` -- what an index finds that is filled name by name.
* `exists_index` -- the index of a schema that is filled so finds what the schema finds.
* `exists_position` -- where a name is found before a projection and after it.
* `project_projection` -- what a schema answers, for every list of names.
-/

namespace Columnar

/-- Where every element is kept, the one at a position comes from the one there. -/
theorem getElem?_filterMap_of_isSome {α β : Type} {f : α → Option β} {xs : List α}
    (h : ∀ x ∈ xs, (f x).isSome = true) (j : Nat) :
    (xs.filterMap f)[j]? = xs[j]?.bind f := by
  induction xs generalizing j with
  | nil => rfl
  | cons x rest ih =>
      obtain ⟨y, hy⟩ := Option.isSome_iff_exists.mp (h x List.mem_cons_self)
      rw [List.filterMap_cons_some hy]
      cases j with
      | zero => simp [hy]
      | succ j =>
          rw [List.getElem?_cons_succ, List.getElem?_cons_succ]
          exact ih (fun x' hx' => h x' (List.mem_cons_of_mem x hx')) j

/-- The name that is found to repeat stands behind names that are new and distinct, and was
seen before them or is one of them. -/
theorem exists_of_firstRepeat {seen names : List String} {name : String}
    (h : firstRepeat seen names = some name) :
    ∃ before after, names = before ++ name :: after ∧ before.Nodup ∧
      (∀ other ∈ before, other ∉ seen) ∧ (name ∈ seen ∨ name ∈ before) := by
  induction names generalizing seen with
  | nil => cases h
  | cons first rest ih =>
      rw [firstRepeat] at h
      split at h
      · next hSeen =>
          obtain rfl := Option.some.inj h
          exact ⟨[], rest, rfl, List.nodup_nil, fun _ hMem => absurd hMem List.not_mem_nil,
            .inl hSeen⟩
      · next hNew =>
          obtain ⟨before, after, rfl, hDistinct, hFresh, hRepeats⟩ := ih h
          have hFirst : first ∉ before := fun hMem => hFresh first hMem List.mem_cons_self
          refine ⟨first :: before, after, rfl, List.nodup_cons.mpr ⟨hFirst, hDistinct⟩, ?_, ?_⟩
          · rw [List.forall_mem_cons]
            exact ⟨hNew, fun other hMem hSeen => hFresh other hMem (.tail first hSeen)⟩
          · rcases hRepeats with hSeen | hMem
            · rcases List.mem_cons.mp hSeen with rfl | hBefore
              · exact .inr List.mem_cons_self
              · exact .inl hBefore
            · exact .inr (.tail first hMem)

/-- Records the positions of names, the first of which is `start`.  Refused at the first name
that is recorded already. -/
def recordNames (index : List (String × Nat)) (start : Nat) :
    List String → Result (List (String × Nat))
  | [] => .ok index
  | name :: rest =>
      if (index.lookup name).isSome then .error (.schema s!"duplicate field name '{name}'")
      else recordNames ((name, start) :: index) (start + 1) rest

section RecordNames

variable {names : List String} {index recorded : List (String × Nat)} {start : Nat}

theorem isSome_lookup_iff (index : List (String × Nat)) (name : String) :
    (index.lookup name).isSome = true ↔ name ∈ index.map Prod.fst := by
  rw [List.lookup_isSome_iff, List.mem_map]
  exact exists_congr fun _ => and_congr_right fun _ => beq_iff_eq.trans eq_comm

/-- Names are recorded unless one of them repeats. -/
theorem error?_recordNames (index : List (String × Nat)) (start : Nat) (names : List String) :
    Result.error? (recordNames index start names) =
      (firstRepeat (index.map Prod.fst) names).map fun name =>
        .schema s!"duplicate field name '{name}'" := by
  induction names generalizing index start with
  | nil => rfl
  | cons name rest ih =>
      rw [recordNames, firstRepeat]
      by_cases hSeen : name ∈ index.map Prod.fst
      · rw [if_pos ((isSome_lookup_iff index name).mpr hSeen), if_pos hSeen]
        rfl
      · rw [if_neg fun h => hSeen ((isSome_lookup_iff index name).mp h), if_neg hSeen, ih]
        rfl

/-- What is recorded stays, and every name is recorded at its position. -/
theorem lookup_of_recordNames (h : recordNames index start names = .ok recorded) :
    (∀ name k, index.lookup name = some k → recorded.lookup name = some k) ∧
      ∀ k name, names[k]? = some name → recorded.lookup name = some (start + k) := by
  induction names generalizing index start with
  | nil =>
      obtain rfl := Except.ok.inj h
      exact ⟨fun _ _ hFound => hFound, fun k name hName => absurd hName (by simp)⟩
  | cons first rest ih =>
      rw [recordNames] at h
      split at h
      · cases h
      · next hNew =>
          obtain ⟨hStays, hRest⟩ := ih h
          refine ⟨fun name k hFound => hStays name k ?_, fun k name hName => ?_⟩
          · have hOther : (name == first) = false := by
              rw [beq_eq_false_iff_ne]
              rintro rfl
              exact hNew (by rw [hFound]; rfl)
            rw [List.lookup_cons, hOther]
            exact hFound
          · cases k with
            | zero =>
                obtain rfl : first = name := Option.some.inj hName
                exact hStays first start (by rw [List.lookup_cons, beq_self_eq_true])
            | succ k =>
                rw [hRest k name hName]
                congr 1
                omega

/-- The names of the index are those that were in it and those that were recorded. -/
theorem map_fst_recordNames (h : recordNames index start names = .ok recorded) :
    recorded.map Prod.fst = names.reverse ++ index.map Prod.fst := by
  induction names generalizing index start with
  | nil =>
      obtain rfl := Except.ok.inj h
      rfl
  | cons name rest ih =>
      rw [recordNames] at h
      split at h
      · cases h
      · rw [ih h, List.reverse_cons, List.append_assoc]
        rfl

end RecordNames

namespace Schema

variable {s projected : Schema} {names : List String} {indices : List Nat}

theorem eq_of_fields {s' : Schema} (h : s.fields = s'.fields) : s = s' := by
  cases s
  cases s'
  cases h
  rfl

theorem fields_of_ofFields {fields : List Field} (h : ofFields fields = .ok s) :
    s.fields = fields := by
  unfold ofFields at h
  split at h
  · rw [← Except.ok.inj h]
  · exact absurd h (by simp)

theorem mapM_locate_eq_ok_iff :
    names.mapM s.locate = .ok indices ↔ names.map s.indexOf? = indices.map some := by
  rw [Result.mapM_eq_ok_iff]
  induction names generalizing indices with
  | nil => cases indices <;> simp
  | cons name rest ih =>
      cases indices with
      | nil => simp
      | cons k ks => simp only [List.map_cons, List.cons.injEq, locate_eq_ok_iff, ih]

theorem project_eq_ok_iff :
    s.project names = .ok (projected, indices) ↔
      names.map s.indexOf? = indices.map some ∧
        ofFields (indices.filterMap s.field?) = .ok projected := by
  rw [project, Result.bind_eq_ok_iff]
  constructor
  · rintro ⟨found, hFound, hRest⟩
    obtain ⟨made, hMade, hPair⟩ := Result.bind_eq_ok_iff.mp hRest
    obtain ⟨rfl, rfl⟩ := Prod.mk.inj (Except.ok.inj hPair)
    exact ⟨mapM_locate_eq_ok_iff.mp hFound, hMade⟩
  · rintro ⟨hIndices, hMade⟩
    exact ⟨indices, mapM_locate_eq_ok_iff.mpr hIndices, by rw [hMade]; rfl⟩

/-- Names have one list of positions. -/
theorem indices_unique {others : List Nat} (h : names.map s.indexOf? = indices.map some)
    (h' : names.map s.indexOf? = others.map some) : indices = others :=
  (List.map_inj_right fun _ _ => Option.some.inj).mp (h.symm.trans h')

/-- The fields at the positions of names have these names. -/
theorem map_name_filterMap (h : names.map s.indexOf? = indices.map some) :
    (indices.filterMap (s.fields[·]?)).map Field.name = names := by
  induction names generalizing indices with
  | nil =>
      rw [List.map_eq_nil_iff.mp h.symm]
      rfl
  | cons name rest ih =>
      cases indices with
      | nil => exact absurd h (by simp)
      | cons k ks =>
          rw [List.map_cons, List.map_cons, List.cons.injEq] at h
          obtain ⟨field, hField, hName⟩ := field_of_indexOf? h.1
          rw [List.filterMap_cons_some hField, List.map_cons, hName, ih h.2]

/-- The positions of names are positions of fields. -/
theorem lt_of_mem_indices (h : names.map s.indexOf? = indices.map some) {k : Nat}
    (hk : k ∈ indices) : k < s.fields.length := by
  have hSome : some k ∈ names.map s.indexOf? := by
    rw [h]
    exact List.mem_map_of_mem hk
  obtain ⟨name, -, hIndex⟩ := List.mem_map.mp hSome
  obtain ⟨field, hField, -⟩ := field_of_indexOf? hIndex
  exact (List.getElem?_eq_some_iff.mp hField).1

/-- Names that have positions are known. -/
theorem exists_indexOf?_of_mem (h : names.map s.indexOf? = indices.map some) {name : String}
    (hName : name ∈ names) : ∃ k, s.indexOf? name = some k := by
  have hMem := List.mem_map_of_mem (f := s.indexOf?) hName
  rw [h] at hMem
  obtain ⟨k, -, hk⟩ := List.mem_map.mp hMem
  exact ⟨k, hk.symm⟩

theorem error?_ofFields (fields : List Field) :
    Result.error? (ofFields fields) =
      (firstRepeat [] (fields.map Field.name)).map fun name =>
        .schema s!"duplicate field name '{name}'" := by
  unfold ofFields
  split
  · next h => simp [h, Result.error?]
  · next name h => simp [h, Result.error?]

/-- Fields make a schema exactly when their names are distinct. -/
theorem exists_ofFields_iff {fields : List Field} :
    (∃ s, ofFields fields = .ok s) ↔ (fields.map Field.name).Nodup := by
  rw [← Result.error?_eq_none_iff, error?_ofFields, Option.map_eq_none_iff,
    firstRepeat_eq_none_iff]
  exact and_iff_left fun _ _ => List.not_mem_nil

/-- A schema can be projected to distinct names of its fields, and to no other list. -/
theorem exists_project_iff :
    (∃ made, s.project names = .ok made) ↔
      names.Nodup ∧ ∀ name ∈ names, ∃ k, s.indexOf? name = some k := by
  constructor
  · rintro ⟨⟨projected, indices⟩, h⟩
    obtain ⟨hIndices, hFields⟩ := project_eq_ok_iff.mp h
    have hNames : (indices.filterMap s.field?).map Field.name = names :=
      map_name_filterMap hIndices
    refine ⟨?_, fun name => exists_indexOf?_of_mem hIndices⟩
    rw [← hNames]
    exact exists_ofFields_iff.mp ⟨projected, hFields⟩
  · rintro ⟨hNodup, hKnown⟩
    obtain ⟨indices, hLocate⟩ := Result.exists_mapM_eq_ok (f := s.locate) fun name hName =>
      (hKnown name hName).imp fun _ => locate_eq_ok_iff.mpr
    have hIndices := mapM_locate_eq_ok_iff.mp hLocate
    have hNames : (indices.filterMap s.field?).map Field.name = names :=
      map_name_filterMap hIndices
    obtain ⟨projected, hFields⟩ := exists_ofFields_iff.mpr (by rwa [hNames])
    exact ⟨_, project_eq_ok_iff.mpr ⟨hIndices, hFields⟩⟩

theorem mem_names_iff {name : String} :
    name ∈ s.fields.map Field.name ↔ ∃ k, s.indexOf? name = some k := by
  constructor
  · intro h
    obtain ⟨field, hField, rfl⟩ := List.mem_map.mp h
    obtain ⟨k, hk⟩ := List.getElem?_of_mem hField
    exact ⟨k, indexOf?_of_getElem? hk⟩
  · rintro ⟨k, h⟩
    obtain ⟨field, hField, rfl⟩ := field_of_indexOf? h
    exact List.mem_map_of_mem (List.mem_of_getElem? hField)

theorem error?_locate (s : Schema) (name : String) :
    Result.error? (s.locate name) =
      if name ∈ s.fields.map Field.name then none else some (.columnNotFound name) := by
  cases hIndex : s.indexOf? name with
  | some k =>
      rw [if_pos (mem_names_iff.mpr ⟨k, hIndex⟩), locate, hIndex]
      rfl
  | none =>
      have hUnknown : name ∉ s.fields.map Field.name := fun hName => by
        obtain ⟨k, hk⟩ := mem_names_iff.mp hName
        rw [hIndex] at hk
        cases hk
      rw [if_neg hUnknown, locate, hIndex]
      rfl

/-- Fields are refused as a schema for the name for which they are refused an index. -/
theorem error?_recordNames_fields (fields : List Field) :
    Result.error? (recordNames [] 0 (fields.map Field.name)) =
      Result.error? (ofFields fields) := by
  rw [error?_recordNames, error?_ofFields, List.map_nil]

/-- So the names of a schema can be recorded, and the index finds every name where the schema
does. -/
theorem exists_index (s : Schema) :
    ∃ index, recordNames [] 0 (s.fields.map Field.name) = .ok index ∧
      ∀ name, index.lookup name = s.indexOf? name := by
  obtain ⟨index, hRecorded⟩ : ∃ index, recordNames [] 0 (s.fields.map Field.name) = .ok index := by
    rw [← Result.error?_eq_none_iff, error?_recordNames_fields, Result.error?_eq_none_iff,
      exists_ofFields_iff]
    exact s.nodup
  refine ⟨index, hRecorded, fun name => ?_⟩
  cases hIndex : s.indexOf? name with
  | some k =>
      obtain ⟨field, hField, rfl⟩ := field_of_indexOf? hIndex
      rw [(lookup_of_recordNames hRecorded).2 k field.name (by rw [List.getElem?_map, hField]; rfl),
        Nat.zero_add]
  | none =>
      rw [← Option.not_isSome_iff_eq_none, isSome_lookup_iff, map_fst_recordNames hRecorded,
        List.map_nil, List.append_nil, List.mem_reverse, mem_names_iff]
      rintro ⟨k, hFound⟩
      rw [hIndex] at hFound
      cases hFound

/-- A name that is kept has a position before the projection, which is returned, and its place
in the list of names is its position afterwards. -/
theorem exists_position (hIndices : names.map s.indexOf? = indices.map some)
    (hFields : projected.fields = indices.filterMap (s.fields[·]?)) {k : Nat} {name : String}
    (hName : names[k]? = some name) :
    ∃ position field, indices[k]? = some position ∧ s.indexOf? name = some position ∧
      s.fields[position]? = some field ∧ field.name = name ∧
      projected.fields[k]? = some field ∧ projected.indexOf? name = some k := by
  have hAt := congrArg (·[k]?) hIndices
  simp only [List.getElem?_map, hName, Option.map_some] at hAt
  obtain ⟨position, hPosition, hIndex⟩ := Option.map_eq_some_iff.mp hAt.symm
  obtain ⟨field, hField, hSame⟩ := field_of_indexOf? hIndex.symm
  have hSome : ∀ i ∈ indices, (s.fields[i]?).isSome = true := fun i hi => by
    simpa using lt_of_mem_indices hIndices hi
  have hKept : projected.fields[k]? = some field := by
    rw [hFields, getElem?_filterMap_of_isSome hSome, hPosition, Option.bind_some, hField]
  exact ⟨position, field, hPosition, hIndex.symm, hField, hSame, hKept,
    hSame ▸ indexOf?_of_getElem? hKept⟩

/-- What a projection makes: at every place the field of the name there, its position in the
source schema, and the place itself as the position of the name, also in an index that is filled
name by name. -/
structure Picks (s : Schema) (names : List String) (projected : Schema) (indices : List Nat) :
    Prop where
  length_fields : projected.length = names.length
  length_indices : indices.length = names.length
  field_eq : ∀ k name, names[k]? = some name → ∃ position field,
    indices[k]? = some position ∧ s.indexOf? name = some position ∧
      s.field? position = some field ∧ field.name = name ∧ projected.field? k = some field
  indexOf?_eq : ∀ k name, names[k]? = some name → projected.indexOf? name = some k
  recorded : ∃ index, recordNames [] 0 (projected.fields.map Field.name) = .ok index ∧
    ∀ k name, names[k]? = some name → index.lookup name = some k

theorem picks_of_project (h : s.project names = .ok (projected, indices)) :
    s.Picks names projected indices := by
  obtain ⟨hIndices, hMade⟩ := project_eq_ok_iff.mp h
  have hFields : projected.fields = indices.filterMap (s.fields[·]?) := fields_of_ofFields hMade
  have hNames : projected.fields.map Field.name = names := by
    rw [hFields, map_name_filterMap hIndices]
  constructor
  case length_fields => rw [← hNames, List.length_map, length]
  case length_indices => simpa using (congrArg List.length hIndices).symm
  case field_eq =>
    intro k name hName
    obtain ⟨position, field, hPosition, hIndex, hField, hSame, hKept, -⟩ :=
      exists_position hIndices hFields hName
    exact ⟨position, field, hPosition, hIndex, hField, hSame, hKept⟩
  case indexOf?_eq =>
    intro k name hName
    obtain ⟨-, -, -, -, -, -, -, hFound⟩ := exists_position hIndices hFields hName
    exact hFound
  case recorded =>
    obtain ⟨index, hRecorded, hIndex⟩ := exists_index projected
    refine ⟨index, hRecorded, fun k name hName => ?_⟩
    obtain ⟨-, -, -, -, -, -, -, hFound⟩ := exists_position hIndices hFields hName
    rw [hIndex, hFound]

/-- How a schema answers the projection to a list of names. -/
inductive Projection (s : Schema) (names : List String) : Result (Schema × List Nat) → Prop where
  /-- A name is unknown, and it is the first that is. -/
  | unknown (before : List String) (name : String) (after : List String)
      (hNames : names = before ++ name :: after)
      (hKnown : ∀ other ∈ before, other ∈ s.fields.map Field.name)
      (hUnknown : name ∉ s.fields.map Field.name) :
      Projection s names (.error (.columnNotFound name))
  /-- All names are known, and one repeats an earlier one; it is the first that does. -/
  | repeated (before : List String) (name : String) (after : List String)
      (hNames : names = before ++ name :: after)
      (hKnown : ∀ other ∈ names, other ∈ s.fields.map Field.name)
      (hDistinct : before.Nodup) (hRepeats : name ∈ before) :
      Projection s names (.error (.schema s!"duplicate field name '{name}'"))
  /-- All names are known and distinct. -/
  | made (projected : Schema) (indices : List Nat)
      (hKnown : ∀ other ∈ names, other ∈ s.fields.map Field.name) (hDistinct : names.Nodup)
      (hPicks : s.Picks names projected indices) : Projection s names (.ok (projected, indices))

theorem projection_of_locate_error {e : Error} (h : names.mapM s.locate = .error e) :
    s.Projection names (.error e) := by
  rw [← Result.error?_eq_some_iff, Result.error?_mapM, List.findSome?_eq_some_iff] at h
  obtain ⟨before, name, after, hNames, hError, hBefore⟩ := h
  rw [error?_locate] at hError
  split at hError
  · cases hError
  · next hUnknown =>
      obtain rfl := Option.some.inj hError
      refine .unknown before name after hNames (fun other hMem => ?_) hUnknown
      have hNone := hBefore other hMem
      rw [error?_locate] at hNone
      split at hNone
      · assumption
      · cases hNone

/-- Every projection is answered in one of the three ways. -/
theorem project_projection (s : Schema) (names : List String) :
    s.Projection names (s.project names) := by
  cases hLocate : names.mapM s.locate with
  | error e =>
      have hError : s.project names = .error e := by
        rw [project, hLocate]
        rfl
      rw [hError]
      exact projection_of_locate_error hLocate
  | ok indices =>
      have hIndices := mapM_locate_eq_ok_iff.mp hLocate
      have hKnown : ∀ other ∈ names, other ∈ s.fields.map Field.name := fun other hMem =>
        mem_names_iff.mpr (exists_indexOf?_of_mem hIndices hMem)
      have hNames : (indices.filterMap s.field?).map Field.name = names :=
        map_name_filterMap hIndices
      cases hFields : ofFields (indices.filterMap s.field?) with
      | error e =>
          have hError : s.project names = .error e := by
            rw [project, hLocate, Result.ok_bind, hFields]
            rfl
          rw [← Result.error?_eq_some_iff, error?_ofFields, hNames] at hFields
          obtain ⟨name, hRepeat, rfl⟩ := Option.map_eq_some_iff.mp hFields
          obtain ⟨before, after, hSplit, hDistinct, -, hSeen | hRepeats⟩ :=
            exists_of_firstRepeat hRepeat
          · exact absurd hSeen List.not_mem_nil
          · rw [hError]
            exact .repeated before name after hSplit hKnown hDistinct hRepeats
      | ok projected =>
          have hProject := project_eq_ok_iff.mpr ⟨hIndices, hFields⟩
          have hDistinct := (exists_project_iff.mp ⟨_, hProject⟩).1
          rw [hProject]
          exact .made projected indices hKnown hDistinct (picks_of_project hProject)

end Schema

end Columnar
