import SelectiveDisclosure.Json.Number

/-!
# JSON values

Members stand in a list. `Value.sorted` brings a value into its normal form: at every depth the
members ascend by name, and of several members with one name the last is kept. Names are compared
by code point, which is also the order of their UTF-8 octets.
-/

set_option autoImplicit false

namespace SelectiveDisclosure.Json

inductive Value where
  | null
  | bool (b : Bool)
  | number (n : Number)
  | string (s : String)
  | array (items : List Value)
  | object (members : List (String × Value))

abbrev Members := List (String × Value)

namespace Members
variable {α : Type}

def get? : List (String × α) → String → Option α
  | [], _ => none
  | (k, v) :: r, name => if k = name then some v else get? r name

def names (ms : List (String × α)) : List String :=
  ms.map Prod.fst

def erase (ms : List (String × α)) (name : String) : List (String × α) :=
  ms.filter fun m => m.1 != name

def insert (name : String) (value : α) : List (String × α) → List (String × α)
  | [] => [(name, value)]
  | (k, v) :: r =>
    if name < k then (name, value) :: (k, v) :: r
    else if name = k then (name, value) :: r
    else (k, v) :: insert name value r

def ofList (ms : List (String × α)) : List (String × α) :=
  ms.foldl (fun sorted m => insert m.1 m.2 sorted) []

def Ascending (ms : List (String × α)) : Prop :=
  ms.Pairwise fun a b => a.1 < b.1

end Members

namespace Value

/-! ## Equality -/

mutual

def same : Value → Value → Bool
  | .null, .null => true
  | .bool a, .bool b => a == b
  | .number m, .number n => m == n
  | .string s, .string t => s == t
  | .array vs, .array ws => sameItems vs ws
  | .object ms, .object ns => sameMembers ms ns
  | _, _ => false

def sameItems : List Value → List Value → Bool
  | [], [] => true
  | v :: vs, w :: ws => same v w && sameItems vs ws
  | _, _ => false

def sameMembers : List (String × Value) → List (String × Value) → Bool
  | [], [] => true
  | (k, v) :: ms, (n, w) :: ns => k == n && same v w && sameMembers ms ns
  | _, _ => false

end

mutual

theorem same_iff : (v w : Value) → (same v w = true ↔ v = w)
  | .null, w => by cases w <;> simp [same]
  | .bool _, w => by cases w <;> simp [same]
  | .number _, w => by cases w <;> simp [same]
  | .string _, w => by cases w <;> simp [same]
  | .array vs, w => by cases w <;> simp [same, sameItems_iff vs]
  | .object ms, w => by cases w <;> simp [same, sameMembers_iff ms]

theorem sameItems_iff : (vs ws : List Value) → (sameItems vs ws = true ↔ vs = ws)
  | [], ws => by cases ws <;> simp [sameItems]
  | v :: vs, ws => by cases ws <;> simp [sameItems, same_iff v, sameItems_iff vs]

theorem sameMembers_iff : (ms ns : List (String × Value)) → (sameMembers ms ns = true ↔ ms = ns)
  | [], ns => by cases ns <;> simp [sameMembers]
  | (_, v) :: ms, ns => by
    cases ns <;> simp [sameMembers, same_iff v, sameMembers_iff ms, Prod.ext_iff]

end

instance : DecidableEq Value := fun v w => decidable_of_iff _ (same_iff v w)

/-! ## Normal form -/

mutual

def sorted : Value → Value
  | .array items => .array (sortedItems items)
  | .object members => .object (Members.ofList (sortedMembers members))
  | v => v

def sortedItems : List Value → List Value
  | [] => []
  | v :: r => sorted v :: sortedItems r

def sortedMembers : List (String × Value) → List (String × Value)
  | [] => []
  | (k, v) :: r => (k, sorted v) :: sortedMembers r

end

mutual

def Sorted : Value → Prop
  | .array items => SortedItems items
  | .object members => Members.Ascending members ∧ SortedMembers members
  | _ => True

def SortedItems : List Value → Prop
  | [] => True
  | v :: r => Sorted v ∧ SortedItems r

def SortedMembers : List (String × Value) → Prop
  | [] => True
  | (_, v) :: r => Sorted v ∧ SortedMembers r

end

mutual

def depth : Value → Nat
  | .array items => depthItems items + 1
  | .object members => depthMembers members + 1
  | _ => 0

def depthItems : List Value → Nat
  | [] => 0
  | v :: r => max (depth v) (depthItems r)

def depthMembers : List (String × Value) → Nat
  | [] => 0
  | (_, v) :: r => max (depth v) (depthMembers r)

end

end Value
end SelectiveDisclosure.Json
