import SelectiveDisclosure.Json.Members
import SelectiveDisclosure.Proofs.Json.Value

/-!
# Members of a record by their names

When no name is repeated, a record is read through the value of each name, so the order of its
members does not matter. An optional member that is written is read back.
-/

set_option autoImplicit false

namespace SelectiveDisclosure.Json

theorem Value.strings?_eq_some_iff {v : Value} {ds : List String} :
    v.strings? = some ds ↔ v = .array (ds.map .string) := by
  have hitems (items : List Value) :
      items.mapM Value.string? = some ds ↔ items = ds.map .string := by
    induction items generalizing ds with
    | nil => cases ds <;> simp
    | cons v r ih =>
      cases v with
      | string s =>
        simp only [List.mapM_cons, Value.string?, Option.bind_eq_bind, Option.bind_some,
          Option.bind_eq_some_iff, ih]
        cases ds <;> simp [and_comm, and_assoc]
      | _ => cases ds <;> simp [List.mapM_cons, Value.string?]
  cases v <;> simp [Value.strings?, hitems]

namespace Members

section Named
variable {α : Type} {ms : Members} {name : String} {read : Value → Option α} {write : α → Value}

theorem named_eq_toList (h : (names ms).Nodup) : named ms name = (get? ms name).toList := by
  induction ms with
  | nil => rfl
  | cons m r ih =>
    obtain ⟨k, v⟩ := m
    obtain ⟨hk, hr⟩ := List.nodup_cons.1 h
    by_cases hname : k = name
    · have hnone : get? r name = none := get?_eq_none_iff.2 (hname ▸ hk)
      have hrest := ih hr
      rw [hnone] at hrest
      rw [get?, if_pos hname]
      simpa [named, hname] using hrest
    · rw [get?, if_neg hname, ← ih hr]
      simp [named, hname]

theorem required?_eq_bind (h : (names ms).Nodup) :
    required? ms name read = (get? ms name).bind read := by
  rw [required?, named_eq_toList h]
  cases get? ms name <;> rfl

def optionalValue? (read : Value → Option α) : Option Value → Option (Option α)
  | none => some none
  | some .null => some none
  | some v => (read v).map some

theorem optional?_eq (h : (names ms).Nodup) :
    optional? ms name read = optionalValue? read (get? ms name) := by
  rw [optional?, named_eq_toList h]
  cases get? ms name with
  | none => rfl
  | some v => cases v <;> rfl

theorem optionalValue?_map (hread : ∀ a, read (write a) = some a) (hnull : ∀ a, write a ≠ .null)
    (a : Option α) : optionalValue? read (a.map write) = some a := by
  cases a with
  | none => rfl
  | some a =>
    rw [Option.map_some, optionalValue?]
    · rw [hread]
      rfl
    · intro heq
      exact hnull a heq

theorem optionalValue?_getD (hread : ∀ a, read (write a) = some a)
    (hnull : ∀ a, write a ≠ .null) (a : Option α) :
    optionalValue? read (some ((a.map write).getD .null)) = some a := by
  cases a with
  | none => rfl
  | some a => exact optionalValue?_map hread hnull (some a)

theorem names_optional (name : String) (write : α → Value) (a : Option α) :
    (names (optional name write a)).Sublist [name] := by
  cases a with
  | none => exact List.nil_sublist _
  | some a => exact List.Sublist.refl _

theorem get?_optional (name : String) (write : α → Value) (a : Option α) (k : String) :
    get? (optional name write a) k = if name = k then a.map write else none := by
  cases a with
  | none => rw [Option.map_none, ite_self]; rfl
  | some a => rfl

theorem mem_optional {m : String × Value} {a : Option α} :
    m ∈ optional name write a ↔ ∃ b, a = some b ∧ m = (name, write b) := by
  cases a with
  | none => simp [optional]
  | some b => simp [optional]

theorem optional?_cases {a : Option α} (h : optional? ms name read = some a) :
    (named ms name = [] ∨ named ms name = [.null]) ∧ a = none ∨
      ∃ v b, named ms name = [v] ∧ read v = some b ∧ a = some b := by
  rw [optional?] at h
  split at h
  · next hnone => exact .inl ⟨.inl hnone, (Option.some.inj h).symm⟩
  · next hnull => exact .inl ⟨.inr hnull, (Option.some.inj h).symm⟩
  · next v _ hv =>
    obtain ⟨b, hread, hb⟩ := Option.map_eq_some_iff.1 h
    exact .inr ⟨v, b, hv, hread, hb.symm⟩
  · cases h

end Named

/-! ## What a record keeps -/

section Kept
variable {α : Type} {ms ws : Members} {name : String} {read : Value → Option α}
  {write : α → Value} {R : Value → Value → Prop}

/-- The values of one name in two records: both tell nothing, or there is one in each, and these
are related. -/
inductive Kept (R : Value → Value → Prop) (vs ws : List Value) : Prop where
  | absent (hv : vs = [] ∨ vs = [.null]) (hw : ws = [] ∨ ws = [.null])
  | present {v w : Value} (hv : vs = [v]) (hw : ws = [w]) (h : R v w)

theorem kept_of_optional? (hn : (names ws).Nodup) (hR : ∀ v a, read v = some a → R v (write a))
    {a : Option α} (h : optional? ms name read = some a)
    (hw : get? ws name = a.map write ∨ get? ws name = some ((a.map write).getD .null)) :
    Kept R (named ms name) (named ws name) := by
  rw [named_eq_toList hn]
  rcases optional?_cases h with ⟨habsent, rfl⟩ | ⟨v, b, hv, hread, rfl⟩
  · refine .absent habsent ?_
    rcases hw with hw | hw
    · exact .inl (congrArg Option.toList hw)
    · exact .inr (congrArg Option.toList hw)
  · have hwritten : get? ws name = some (write b) := hw.elim id id
    exact .present hv (congrArg Option.toList hwritten) (hR v b hread)

end Kept

end Members

end SelectiveDisclosure.Json
