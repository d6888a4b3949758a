import Promin.Scheduler.MetadataFilter
import Promin.Spec.MetadataFilters

/-!
# What a metadata filter of schedules selects

`scheduleMetadataContains` and the leaves of `flattenLeafPaths` select the same
schedules exactly for plain filters.
-/

namespace Promin.Scheduler

open Bool hiding false_and

open JsMap Option List

open Durable (deepEqual deepEqualItems deepEqual_refl Record)

/-! ## Plain filters -/

mutual

theorem contains_iff_deepEqual (x : JsValue) : (v : JsValue) → v.isJson = true →
    holdsObject v = false → (contains x v = true ↔ deepEqual x v = true)
  | .undefined, h, _ | .date _, h, _ => nomatch h
  | .obj _, _, h => nomatch h
  | .null, _, _ | .bool _, _, _ | .num _, _, _ | .str _, _, _ => by
    cases x <;> simp [contains, deepEqual]
  | .arr items, hjson, hflat => by
    cases x with
    | arr xs =>
      simp only [contains, deepEqual]
      exact arraysEqual_iff_deepEqual xs items hjson hflat
    | _ => simp [contains, deepEqual]

private theorem arraysEqual_iff_deepEqual : (xs items : List JsValue) →
    JsValue.isJsonItems items = true → someHoldsObject items = false →
      (arraysEqual xs items = true ↔ deepEqualItems xs items = true)
  | [], [], _, _ => Iff.rfl
  | [], _ :: _, _, _ | _ :: _, [], _, _ => by simp [arraysEqual, deepEqualItems]
  | x :: xs, v :: items, hjson, hflat => by
    simp only [JsValue.isJsonItems, and_eq_true] at hjson
    simp only [someHoldsObject, or_eq_false_iff] at hflat
    simp only [arraysEqual, deepEqualItems, and_eq_true,
      contains_iff_deepEqual x v hjson.1 hflat.1,
      arraysEqual_iff_deepEqual xs items hjson.2 hflat.2]

end

theorem containsAll_iff {xs ms : List (String × JsValue)} :
    containsAll xs ms = true ↔ ∀ e ∈ ms, contains (memberAt xs e.1) e.2 = true := by
  induction ms with
  | nil => simp [containsAll]
  | cons e ms ih => simp [containsAll, ih]

theorem mem_flattenLeafPaths {ms : List (String × JsValue)} {leaf : List String × JsValue} :
    leaf ∈ flattenLeafPaths ms ↔
      ∃ e ∈ ms, ∃ inner ∈ walk e.2, leaf = (e.1 :: inner.1, inner.2) := by
  induction ms with
  | nil => simp [flattenLeafPaths]
  | cons e ms ih => simp [flattenLeafPaths, ih, eq_comm]

theorem present_cons {xs : List (String × JsValue)} {k : String} {path : List String}
    {w : JsValue} : Present (.obj xs) (k :: path, w) ↔
      ∃ x ∈ JsMap.lookup k xs, Present x (path, w) := by
  simp only [Present, valueAt, bind_eq_some_iff, mem_def]
  exact ⟨fun ⟨v, ⟨x, hx, hv⟩, heq⟩ => ⟨x, hx, v, hv, heq⟩,
    fun ⟨x, hx, v, hv, heq⟩ => ⟨v, ⟨x, hx, hv⟩, heq⟩⟩

theorem walk_ne_nil {k : String} : (v : JsValue) → v.isJson = true → plain k v = true →
    walk v ≠ []
  | .undefined, _, _ | .null, _, _ | .bool _, _, _ | .num _, _, _ | .str _, _, _ | .arr _, _, _ =>
    cons_ne_nil _ _
  | .date _, h, _ => nomatch h
  | .obj [], _, h => nomatch h
  | .obj ((k', v) :: rest), hjson, h => by
    simp only [JsValue.isJson, JsValue.isJsonMembers, and_eq_true] at hjson
    simp only [plain, allPlain, and_eq_true] at h
    simp [walk, flattenLeafPaths, walk_ne_nil v hjson.2.1 h.2.1]

private theorem contains_undefined {v : JsValue} (hjson : v.isJson = true) :
    contains .undefined v = false := by
  cases v <;> first | rfl | exact nomatch hjson

theorem contains_inherited {k : String} {v : JsValue} (hjson : v.isJson = true)
    (h : plain k v = true) : contains (inherited k) v = false := by
  rw [← not_eq_true]
  intro hcontains
  by_cases hk : k = "__proto__"
  · rw [inherited, if_pos hk] at hcontains
    cases v with
    | obj ms =>
      simp only [plain, inherited, if_pos hk, and_eq_true, not_eq_true',
        beq_eq_false_iff_ne, isEmpty_eq_false_iff] at h
      obtain ⟨⟨hne, hother⟩, -⟩ := h
      rw [JsValue.isJson_obj_iff] at hjson
      rw [contains, containsAll_iff] at hcontains
      -- Every member is `__proto__` with the value `null`, so there is one.
      have hproto : ∀ e ∈ ms, e = ("__proto__", .null) := by
        rintro ⟨k', v⟩ he
        have hv := hcontains _ he
        by_cases hk' : k' = "__proto__"
        · subst hk'
          cases v <;> simp [memberAt, JsMap.lookup, contains] at hv ⊢
        · rw [memberAt, JsMap.lookup, if_neg (Ne.symm hk'), JsMap.lookup, getD_none,
            inherited, if_neg hk', contains_undefined (hjson.2 _ he)] at hv
          cases hv
      cases ms with
      | nil => exact hne rfl
      | cons e ms =>
        cases ms with
        | nil => exact hother (by rw [hproto e mem_cons_self])
        | cons e' ms =>
          have hkeys := hjson.1
          rw [hproto e mem_cons_self,
            hproto e' (mem_cons_of_mem _ mem_cons_self)] at hkeys
          simp at hkeys
    | date _ => cases hjson
    | _ => simp [contains] at hcontains
  · rw [inherited, if_neg hk, contains_undefined hjson] at hcontains
    cases hcontains

mutual

theorem contains_iff_present {k : String} (x : JsValue) : (v : JsValue) → v.isJson = true →
    plain k v = true → (contains x v = true ↔ ∀ leaf ∈ walk v, Present x leaf)
  | .undefined, h, _ | .date _, h, _ => nomatch h
  | .null, hjson, _ | .bool _, hjson, _ | .num _, hjson, _ | .str _, hjson, _ => by
    simp [walk, Present, valueAt, contains_iff_deepEqual x _ hjson rfl]
  | .arr items, hjson, h => by
    simp only [plain, not_eq_true'] at h
    simp [walk, Present, valueAt, contains_iff_deepEqual x _ hjson h]
  | .obj ms, hjson, h => by
    obtain ⟨leaf, hleaf⟩ := exists_mem_of_ne_nil _ (walk_ne_nil _ hjson h)
    obtain ⟨e, -, inner, -, rfl⟩ := mem_flattenLeafPaths.mp hleaf
    simp only [plain, and_eq_true] at h
    simp only [JsValue.isJson, and_eq_true] at hjson
    have hmembers := fun xs => containsAll_iff_present xs ms hjson.2 h.2
    cases x with
    | obj xs => exact hmembers xs
    | date _ =>
      refine (hmembers []).trans (iff_of_false (fun hall => ?_) fun hall => ?_)
      · simpa [Present, valueAt, JsMap.lookup] using hall _ hleaf
      · simpa [Present, valueAt] using hall _ hleaf
    | _ =>
      refine iff_of_false (by simp [contains]) fun hall => ?_
      simpa [Present, valueAt] using hall _ hleaf

theorem containsAll_iff_present (xs : List (String × JsValue)) : (ms : List (String × JsValue)) →
    JsValue.isJsonMembers ms = true → allPlain ms = true →
      (containsAll xs ms = true ↔ ∀ leaf ∈ flattenLeafPaths ms, Present (.obj xs) leaf)
  | [], _, _ => by simp [containsAll, flattenLeafPaths]
  | (k, v) :: rest, hjson, h => by
    simp only [JsValue.isJsonMembers, and_eq_true] at hjson
    simp only [allPlain, and_eq_true] at h
    have hrest := containsAll_iff_present xs rest hjson.2 h.2
    have hvalue := fun x => contains_iff_present (k := k) x v hjson.1 h.1
    simp only [containsAll, flattenLeafPaths, and_eq_true, hrest, forall_mem_append,
      List.forall_mem_map, present_cons]
    refine and_congr_left fun _ => ?_
    cases hx : JsMap.lookup k xs with
    | some x => simp [memberAt, hx, hvalue]
    | none =>
      simp only [memberAt, hx, getD_none, contains_inherited hjson.1 h.1]
      obtain ⟨leaf, hleaf⟩ := exists_mem_of_ne_nil _ (walk_ne_nil v hjson.1 h.1)
      simp only [Bool.false_eq_true, false_iff, not_mem_none, false_and, exists_false]
      exact fun hall => hall leaf hleaf

end

/-! ## Filters that are not plain -/

mutual

theorem contains_self : (v : JsValue) → v.isJson = true → contains v v = true
  | .undefined, h | .date _, h => nomatch h
  | .null, _ => rfl
  | .bool _, _ | .num _, _ | .str _, _ => by simp [contains]
  | .arr items, h => arraysEqual_self items h
  | .obj ms, h => by
    simp only [JsValue.isJson, and_eq_true, decide_eq_true_eq] at h
    exact containsAll_self ms ms h.2 fun e he => lookup_of_mem h.1 he

private theorem arraysEqual_self : (items : List JsValue) → JsValue.isJsonItems items = true →
    arraysEqual items items = true
  | [], _ => rfl
  | v :: rest, h => by
    simp only [JsValue.isJsonItems, Bool.and_eq_true] at h
    simp only [arraysEqual, contains_self v h.1, arraysEqual_self rest h.2, Bool.and_self]

private theorem containsAll_self (xs : List (String × JsValue)) :
    (ms : List (String × JsValue)) → JsValue.isJsonMembers ms = true →
      (∀ e ∈ ms, JsMap.lookup e.1 xs = some e.2) → containsAll xs ms = true
  | [], _, _ => rfl
  | (k, v) :: rest, h, hxs => by
    simp only [JsValue.isJsonMembers, and_eq_true] at h
    have hk : memberAt xs k = v := by rw [memberAt, hxs _ mem_cons_self, getD_some]
    simp only [containsAll, hk, contains_self v h.1, Bool.true_and]
    exact containsAll_self xs rest h.2 fun e he => hxs e (mem_cons_of_mem _ he)

end

mutual

theorem present_self : (v : JsValue) → v.isJson = true → ∀ leaf ∈ walk v, Present v leaf
  | .undefined, h | .date _, h => nomatch h
  | .null, h | .bool _, h | .num _, h | .str _, h | .arr _, h => by
    intro leaf hleaf
    cases mem_singleton.mp hleaf
    exact ⟨_, rfl, deepEqual_refl _ h⟩
  | .obj ms, h => by
    intro leaf hleaf
    simp only [JsValue.isJson, and_eq_true, decide_eq_true_eq] at h
    obtain ⟨e, he, inner, hinner, rfl⟩ := mem_flattenLeafPaths.mp hleaf
    exact present_cons.mpr ⟨e.2, lookup_of_mem h.1 he, present_members ms h.2 e he _ hinner⟩

private theorem present_members : (ms : List (String × JsValue)) →
    JsValue.isJsonMembers ms = true → ∀ e ∈ ms, ∀ leaf ∈ walk e.2, Present e.2 leaf
  | [], _ => fun _ he => nomatch he
  | (_, v) :: rest, h => by
    simp only [JsValue.isJsonMembers, and_eq_true] at h
    exact forall_mem_cons.mpr ⟨present_self v h.1, present_members rest h.2⟩

end

mutual

/-- An object in an array may have a member more. -/
theorem exists_contains : (v : JsValue) → v.isJson = true → holdsObject v = true →
    ∃ x : JsValue, x.isJson = true ∧ contains x v = true ∧ deepEqual x v = false
  | .undefined, _, h | .null, _, h | .bool _, _, h | .num _, _, h | .str _, _, h
  | .date _, _, h => nomatch h
  | .arr items, hjson, h => by
    obtain ⟨xs, hxs, hcontains, hdiffers⟩ := exists_arraysEqual items hjson h
    exact ⟨.arr xs, hxs, hcontains, hdiffers⟩
  | .obj ms, hjson, _ => by
    obtain ⟨k, hk⟩ := Infinite.exists_notMem_finset (ms.map Prod.fst).toFinset
    rw [List.mem_toFinset] at hk
    have hms := (JsValue.isJson_obj_iff ms).mp hjson
    refine ⟨.obj ((k, .null) :: ms), (JsValue.isJson_obj_iff _).mpr ⟨?_, ?_⟩, ?_, ?_⟩
    · exact nodup_cons.mpr ⟨hk, hms.1⟩
    · exact forall_mem_cons.mpr ⟨rfl, hms.2⟩
    · simp only [JsValue.isJson, and_eq_true] at hjson
      refine containsAll_self _ ms hjson.2 fun e he => ?_
      rw [JsMap.lookup, if_neg, lookup_of_mem hms.1 he]
      rintro rfl
      exact hk (mem_map_of_mem he)
    · simp [deepEqual]

private theorem exists_arraysEqual : (items : List JsValue) → JsValue.isJsonItems items = true →
    someHoldsObject items = true → ∃ xs, JsValue.isJsonItems xs = true ∧
      arraysEqual xs items = true ∧ deepEqualItems xs items = false
  | [], _, h => nomatch h
  | v :: rest, hjson, h => by
    simp only [JsValue.isJsonItems, and_eq_true] at hjson
    by_cases hv : holdsObject v = true
    · obtain ⟨x, hx, hcontains, hdiffers⟩ := exists_contains v hjson.1 hv
      refine ⟨x :: rest, ?_, ?_, ?_⟩
      · simp [JsValue.isJsonItems, hx, hjson.2]
      · simp [arraysEqual, hcontains, arraysEqual_self rest hjson.2]
      · simp [deepEqualItems, hdiffers]
    · simp only [someHoldsObject, hv, Bool.false_or] at h
      obtain ⟨xs, hxs, hcontains, hdiffers⟩ := exists_arraysEqual rest hjson.2 h
      refine ⟨v :: xs, ?_, ?_, ?_⟩
      · simp [JsValue.isJsonItems, hxs, hjson.1]
      · simp [arraysEqual, hcontains, contains_self v hjson.1]
      · simp [deepEqualItems, hdiffers]

end

/-- What stands at a member of the filter in memory and in SQL, where `x?` is stored there. -/
def SameAt (k : String) (v : JsValue) (x? : Option JsValue) : Prop :=
  contains (x?.getD (inherited k)) v = true ↔ ∀ leaf ∈ walk v, ∃ x ∈ x?, Present x leaf

/-- All other members may be stored as the filter has them. -/
theorem differs_of_member {ms : List (String × JsValue)} (hjson : (JsValue.obj ms).isJson = true)
    {k : String} {v : JsValue} (he : (k, v) ∈ ms) {x? : Option JsValue}
    (hx : ∀ x ∈ x?, x.isJson = true) (hdiffers : ¬ SameAt k v x?) :
    ∃ xs, (JsValue.obj xs).isJson = true ∧
      ¬ (containsAll xs ms = true ↔ ∀ leaf ∈ flattenLeafPaths ms, Present (.obj xs) leaf) := by
  obtain ⟨hnodup, hvalues⟩ := (JsValue.isJson_obj_iff ms).mp hjson
  obtain ⟨m, hget⟩ : ∃ m : JsMap String JsValue, ∀ k', m.get k' =
      if k = k' then x? else JsMap.lookup k' ms := by
    cases x? with
    | some x => exact ⟨(⟨ms, hnodup⟩ : JsMap String JsValue).set k x, fun k' => get_set _ k k' x⟩
    | none => exact ⟨(⟨ms, hnodup⟩ : JsMap String JsValue).delete k, get_delete _ k⟩
  have hstored : JsMap.lookup k m.entries = x? := by
    have hk := hget k
    rwa [if_pos rfl] at hk
  have hother : ∀ e ∈ ms, e = (k, v) ∨ JsMap.lookup e.1 m.entries = some e.2 := by
    rintro ⟨k', v'⟩ he'
    have hlookup := lookup_of_mem hnodup he'
    by_cases hk : k = k'
    · subst hk
      rw [lookup_of_mem hnodup he, Option.some.injEq] at hlookup
      exact .inl (by rw [hlookup])
    · exact .inr (((hget k').trans (if_neg hk)).trans hlookup)
  refine ⟨m.entries, (JsValue.isJson_obj_iff _).mpr ⟨m.nodup, fun e hmem => ?_⟩, fun hsame =>
    hdiffers ?_⟩
  · have hvalue := hget e.1
    rw [(mem_entries_iff m e.1 e.2).mp hmem] at hvalue
    split at hvalue
    · exact hx e.2 hvalue.symm
    · exact hvalues _ (mem_of_lookup hvalue.symm)
  · have hmemory : containsAll m.entries ms = true ↔
        contains (x?.getD (inherited k)) v = true := by
      rw [containsAll_iff]
      constructor
      · intro hall
        simpa only [memberAt, hstored] using hall _ he
      · intro hv e hmem
        rcases hother e hmem with rfl | hlookup
        · simpa only [memberAt, hstored] using hv
        · rw [memberAt, hlookup, getD_some]
          exact contains_self e.2 (hvalues e hmem)
    have hsql : (∀ leaf ∈ flattenLeafPaths ms, Present (.obj m.entries) leaf) ↔
        ∀ leaf ∈ walk v, ∃ x ∈ x?, Present x leaf := by
      simp only [mem_flattenLeafPaths]
      constructor
      · intro hall leaf hleaf
        have hpresent := present_cons.mp (hall _ ⟨_, he, leaf, hleaf, rfl⟩)
        rwa [hstored] at hpresent
      · rintro hv leaf ⟨e, hmem, inner, hinner, rfl⟩
        rw [present_cons]
        rcases hother e hmem with rfl | hlookup
        · rw [hstored]
          exact hv inner hinner
        · exact ⟨e.2, hlookup, present_self e.2 (hvalues e hmem) inner hinner⟩
    rw [SameAt, ← hmemory, ← hsql]
    exact hsame

mutual

theorem differs_value (k : String) : (v : JsValue) → v.isJson = true → plain k v = false →
    ∃ x? : Option JsValue, (∀ x ∈ x?, x.isJson = true) ∧ ¬ SameAt k v x?
  | .undefined, _, h | .null, _, h | .bool _, _, h | .num _, _, h | .str _, _, h
  | .date _, _, h => nomatch h
  | .arr items, hjson, h => by
    simp only [plain, not_eq_false'] at h
    obtain ⟨x, hx, hcontains, hdiffers⟩ := exists_contains (.arr items) hjson h
    refine ⟨some x, by simpa using hx, fun hsame => ?_⟩
    obtain ⟨x', hx', y, hy, hequal⟩ := hsame.mp hcontains _ (mem_singleton_self _)
    cases hx'
    cases hy
    rw [hdiffers] at hequal
    cases hequal
  | .obj ms, hjson, h => by
    by_cases hall : allPlain ms = true
    · simp only [plain, hall, Bool.and_true, Bool.and_eq_false_iff, Bool.not_eq_false',
        List.isEmpty_iff, beq_iff_eq] at h
      rcases h with rfl | h
      · exact ⟨some .null, by simp [JsValue.isJson],
          by simp [SameAt, contains, walk, flattenLeafPaths]⟩
      · -- The member is missing, and inherited as the filter has it.
        refine ⟨none, nofun, fun hsame => ?_⟩
        have hcontains : contains (Option.getD none (inherited k)) (.obj ms) = true := by
          rw [getD_none, h]
          exact contains_self _ hjson
        have hleaf := hsame.mp hcontains
        rw [inherited] at h
        split at h
        · cases h
          obtain ⟨x, hx, -⟩ := hleaf (["__proto__"], .null) (by simp [walk, flattenLeafPaths])
          cases hx
        · cases h
    · have hms := hjson
      simp only [JsValue.isJson, and_eq_true] at hms
      obtain ⟨e, he, x?, hx, hdiffers⟩ := differs_members ms hms.2 (by simpa using hall)
      obtain ⟨xs, hxs, hsame⟩ := differs_of_member hjson he hx hdiffers
      exact ⟨some (.obj xs), by simpa using hxs, by simpa [SameAt, contains, walk] using hsame⟩

private theorem differs_members : (ms : List (String × JsValue)) →
    JsValue.isJsonMembers ms = true → allPlain ms = false →
      ∃ e ∈ ms, ∃ x? : Option JsValue, (∀ x ∈ x?, x.isJson = true) ∧ ¬ SameAt e.1 e.2 x?
  | [], _, h => nomatch h
  | (k, v) :: rest, hjson, h => by
    simp only [JsValue.isJsonMembers, and_eq_true] at hjson
    by_cases hv : plain k v = true
    · simp only [allPlain, hv, Bool.true_and] at h
      obtain ⟨e, he, hdiffers⟩ := differs_members rest hjson.2 h
      exact ⟨e, mem_cons_of_mem _ he, hdiffers⟩
    · exact ⟨(k, v), mem_cons_self, differs_value k v hjson.1 (by simpa using hv)⟩

end

/-! ## The two readings -/

theorem scheduleMetadataContains_some (actual filter : Record) :
    scheduleMetadataContains (some actual) filter = containsAll actual filter := by
  cases filter <;> rfl

/-- Memory and SQL agree on a filter, for the metadata of every schedule, exactly when no nested
object is empty, none is what every object inherits, and no array holds an object. -/
theorem meansTheSame_iff {filter : Record} (hjson : (JsValue.obj filter).isJson = true) :
    MeansTheSame filter ↔ allPlain filter = true := by
  have hmembers := hjson
  simp only [JsValue.isJson, and_eq_true] at hmembers
  simp only [MeansTheSame, scheduleMetadataContains_some]
  constructor
  · intro hsame
    rw [← not_eq_false]
    intro hplain
    obtain ⟨e, he, x?, hx, hdiffers⟩ := differs_members filter hmembers.2 hplain
    obtain ⟨xs, hxs, hnot⟩ := differs_of_member hjson he hx hdiffers
    exact hnot (hsame xs hxs)
  · exact fun hplain actual _ => containsAll_iff_present actual filter hmembers.2 hplain

theorem meansTheSame_target :
    MeansTheSame [("target", .obj [("type", .str "agent"), ("tags", .arr [.num 1])])] :=
  (meansTheSame_iff (by decide)).mpr (by decide)

/-- An object in an array is contained in one with a member more. -/
theorem meansTheSame_counterexample :
    ¬ MeansTheSame [("steps", .arr [.obj [("id", .num 1)]])] := by
  intro hsame
  have hmember := (hsame [("steps", .arr [.obj [("id", .num 1), ("n", .num 2)]])] (by decide)).mp
    (by decide) _ mem_cons_self
  obtain ⟨v, hv, hequal⟩ := hmember
  cases hv
  exact absurd hequal (by decide)

end Promin.Scheduler
