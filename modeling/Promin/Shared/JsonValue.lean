import Promin.ForStd.JsMap
import Promin.Shared.JsValue

/-!
# JSON values

The values `JSON.parse` answers (`isJson`): no `undefined`, no dates, and the
keys of an object are distinct.
-/

namespace Promin

namespace JsValue

mutual

/-- A value `JSON.parse` can answer. -/
def isJson : JsValue → Bool
  | .undefined => false
  | .null => true
  | .bool _ => true
  | .num _ => true
  | .str _ => true
  | .date _ => false
  | .arr items => isJsonItems items
  | .obj members => decide (members.map Prod.fst).Nodup && isJsonMembers members

def isJsonItems : List JsValue → Bool
  | [] => true
  | v :: rest => isJson v && isJsonItems rest

def isJsonMembers : List (String × JsValue) → Bool
  | [] => true
  | (_, v) :: rest => isJson v && isJsonMembers rest

end

/-- Neither an array nor an object. -/
def isScalar : JsValue → Bool
  | .arr _ => false
  | .obj _ => false
  | _ => true

mutual

/-- `a @> b`: the members of an object are found and contain theirs, the items of an array are
    contained in some item each, and scalars are equal. -/
def contains : (a b : JsValue) → Bool
  | .null, .null => true
  | .bool x, .bool y => x == y
  | .num x, .num y => x == y
  | .str x, .str y => x == y
  | .arr xs, .arr ys => containsItems xs ys
  | .obj xs, .obj ys => containsMembers xs ys
  | _, _ => false

def containsItems (xs : List JsValue) : List JsValue → Bool
  | [] => true
  | y :: ys => xs.any (fun x => contains x y) && containsItems xs ys

def containsMembers (xs : List (String × JsValue)) : List (String × JsValue) → Bool
  | [] => true
  | (k, y) :: ys =>
    (match JsMap.lookup k xs with
      | some x => contains x y
      | none => false) && containsMembers xs ys

end

theorem isJsonMembers_iff (ms : List (String × JsValue)) :
    isJsonMembers ms = true ↔ ∀ e ∈ ms, isJson e.2 = true := by
  induction ms with
  | nil => simp [isJsonMembers]
  | cons e ms ih =>
    obtain ⟨k, v⟩ := e
    simp [isJsonMembers, ih]

theorem isJson_obj_iff (ms : List (String × JsValue)) :
    isJson (.obj ms) = true ↔ (ms.map Prod.fst).Nodup ∧ ∀ e ∈ ms, isJson e.2 = true := by
  simp [isJson, isJsonMembers_iff]

theorem containsMembers_iff (xs ys : List (String × JsValue)) :
    containsMembers xs ys = true ↔
      ∀ e ∈ ys, ∃ x, JsMap.lookup e.1 xs = some x ∧ contains x e.2 = true := by
  induction ys with
  | nil => simp [containsMembers]
  | cons e ys ih =>
    obtain ⟨k, y⟩ := e
    simp only [containsMembers, Bool.and_eq_true, ih, List.forall_mem_cons]
    cases JsMap.lookup k xs <;> simp

theorem contains_scalar {a b : JsValue} (hb : isScalar b = true) (hjson : isJson b = true) :
    contains a b = true ↔ a = b := by
  cases b <;> cases a <;> simp_all [contains, isScalar, isJson]

/-! ## Through `JSON.stringify` and `JSON.parse` -/

mutual

/-- `JSON.parse(JSON.stringify(value))`, for a value inside an array: `undefined` is stored as
    `null` there. -/
def parsed : JsValue → JsValue
  | .undefined => .null
  | .null => .null
  | .bool b => .bool b
  | .num n => .num n
  | .str s => .str s
  | .date ms => .str (toISOString ms)
  | .arr items => .arr (parsedItems items)
  | .obj members => .obj (parsedMembers members)

/-- The items of an array, stored and read back. -/
def parsedItems : List JsValue → List JsValue
  | [] => []
  | v :: rest => parsed v :: parsedItems rest

/-- The members of an object, stored and read back: `undefined` members are left out. -/
def parsedMembers : List (String × JsValue) → List (String × JsValue)
  | [] => []
  | (k, v) :: rest =>
    if v = .undefined then parsedMembers rest else (k, parsed v) :: parsedMembers rest

end

mutual

theorem parsed_of_isJson : (v : JsValue) → isJson v = true → parsed v = v
  | .undefined, h => nomatch h
  | .null, _ => rfl
  | .bool _, _ => rfl
  | .num _, _ => rfl
  | .str _, _ => rfl
  | .date _, h => nomatch h
  | .arr items, h => by
    simp only [isJson] at h
    simp only [parsed, parsedItems_of_isJson items h]
  | .obj members, h => by
    simp only [isJson, Bool.and_eq_true] at h
    simp only [parsed, parsedMembers_of_isJson members h.2]

private theorem parsedItems_of_isJson : (items : List JsValue) → isJsonItems items = true →
    parsedItems items = items
  | [], _ => rfl
  | v :: rest, h => by
    simp only [isJsonItems, Bool.and_eq_true] at h
    simp only [parsedItems, parsed_of_isJson v h.1, parsedItems_of_isJson rest h.2]

theorem parsedMembers_of_isJson : (members : List (String × JsValue)) →
    isJsonMembers members = true → parsedMembers members = members
  | [], _ => rfl
  | (k, v) :: rest, h => by
    simp only [isJsonMembers, Bool.and_eq_true] at h
    have hdefined : v ≠ .undefined := by
      intro heq
      rw [heq] at h
      exact nomatch h.1
    simp only [parsedMembers, if_neg hdefined, parsed_of_isJson v h.1,
      parsedMembers_of_isJson rest h.2]

end

end JsValue

end Promin
