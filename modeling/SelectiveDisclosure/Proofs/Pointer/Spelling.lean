import SelectiveDisclosure.Proofs.Pointer.Tokens

/-!
# Texts that are pointers

A text is a pointer exactly if it is written by pushing texts onto the root. The pushed texts are the
only ones that write it: its tokens, split off one after the other, decode to them.
-/

set_option autoImplicit false

namespace SelectiveDisclosure.Pointer

/-! ## Writing -/

def written (path : List String) : List Char :=
  path.flatMap fun s => '/' :: escaped s.toList

theorem toList_text_push (p : Pointer) (s : String) :
    (p.push s).text.toList = p.text.toList ++ written [s] := by
  simp [push, written]

theorem toList_text_pushAll (p : Pointer) (path : List String) :
    (p.pushAll path).text.toList = p.text.toList ++ written path := by
  induction path generalizing p with
  | nil => simp [written]
  | cons s r ih =>
    rw [pushAll_cons, ih, toList_text_push, List.append_assoc]
    simp [written]

theorem toList_text_root_pushAll (path : List String) :
    (root.pushAll path).text.toList = written path :=
  toList_text_pushAll root path

theorem root_pushAll_injective {path path' : List String}
    (h : (root.pushAll path).text = (root.pushAll path').text) : path = path' := by
  have hpointer : root.pushAll path = root.pushAll path' := by
    rw [mk.injEq]
    exact h
  have hdecoded := congrArg decoded hpointer
  rwa [decoded_pushAll, decoded_pushAll, decoded_root, List.nil_append, List.nil_append]
    at hdecoded

/-! ## Splitting -/

/-- The first token of a text and what is left behind it, whether or not the text is a pointer. -/
def cutFirst? : List Char → Option (List Char × List Char)
  | '/' :: r => some (r.takeWhile (· != '/'), r.dropWhile (· != '/'))
  | _ => none

theorem splitFirst?_map (p : Pointer) :
    p.splitFirst?.map (fun e => (e.1.raw.toList, e.2.text.toList)) = cutFirst? p.text.toList := by
  unfold splitFirst?
  split
  · next r hr => simp [hr, cutFirst?]
  · next hne =>
    rw [cutFirst?.eq_2]
    · rfl
    · exact hne

theorem isPointer_of_cutFirst? {s t rest : List Char} (hs : isPointer s = true)
    (h : cutFirst? s = some (t, rest)) :
    s = '/' :: t ++ rest ∧ '/' ∉ t ∧ escapesClosed t = true ∧ isPointer rest = true := by
  unfold cutFirst? at h
  split at h
  · next r =>
    obtain ⟨rfl, rfl⟩ := Prod.mk.inj (Option.some.inj h)
    have hr := escapesClosed_tail hs
    refine ⟨?_, slash_notMem_takeWhile r, escapesClosed_takeWhile hr, isPointer_dropWhile hr⟩
    rw [List.cons_append, List.takeWhile_append_dropWhile]
  · cases h

/-- The tokens that are split off one after the other, until the root is left. -/
inductive SplitsInto : Pointer → List Token → Prop
  | root {p : Pointer} (h : p.splitFirst? = none) : SplitsInto p []
  | token {p rest : Pointer} {t : Token} {ts : List Token} (h : p.splitFirst? = some (t, rest))
    (hrest : SplitsInto rest ts) : SplitsInto p (t :: ts)

theorem tokens_of_splitFirst?_eq_none {p : Pointer} (h : p.splitFirst? = none) :
    p.tokens = [] := by
  refine tokens_eq_of_slashed nofun ?_
  rw [splitFirst?_eq_none h]
  rfl

theorem tokens_of_splitFirst?_eq_some {p rest : Pointer} {t : Token}
    (h : p.splitFirst? = some (t, rest)) : p.tokens = t :: rest.tokens := by
  obtain ⟨htext, ht⟩ := splitFirst?_eq_some h
  refine tokens_eq_of_slashed ?_ ?_
  · exact List.forall_mem_cons.2 ⟨ht, fun _ => wellFormed_of_mem_tokens⟩
  · rw [htext, ← slashed_tokens rest]
    rfl

theorem splitsInto_iff {p : Pointer} {ts : List Token} : p.SplitsInto ts ↔ p.tokens = ts := by
  constructor
  · intro h
    induction h with
    | root h => exact tokens_of_splitFirst?_eq_none h
    | token h _ ih => rw [tokens_of_splitFirst?_eq_some h, ih]
  · intro h
    induction ts generalizing p with
    | nil =>
      cases hsplit : p.splitFirst? with
      | none => exact .root hsplit
      | some e =>
        rw [tokens_of_splitFirst?_eq_some hsplit] at h
        cases h
    | cons t ts ih =>
      cases hsplit : p.splitFirst? with
      | none =>
        rw [tokens_of_splitFirst?_eq_none hsplit] at h
        cases h
      | some e =>
        rw [tokens_of_splitFirst?_eq_some hsplit] at h
        cases h
        exact .token hsplit (ih rfl)

/-! ## Reading -/

theorem ofText?_eq_some_iff {s : String} {p : Pointer} : ofText? s = some p ↔ p.text = s := by
  constructor
  · intro h
    obtain ⟨_, h⟩ := Option.dite_none_right_eq_some.1 h
    rw [← Option.some.inj h]
  · rintro rfl
    exact dif_pos p.valid

theorem map_decode_tokens (p : Pointer) : p.tokens.map Token.decode = p.decoded :=
  List.map_congr_left fun _ ht => (Token.toDecoded_eq_decode (wellFormed_of_mem_tokens ht)).symm

/-- A pointer is taken apart into tokens that decode to the texts, and these write it again. -/
structure ReadsAs (p : Pointer) (path : List String) : Prop where
  splits : ∀ ts, p.SplitsInto ts ↔ p.tokens = ts
  decode : p.tokens.map Token.decode = path
  toDecoded : p.tokens.map Token.toDecoded = path
  rebuilt : (root.pushAll path).text = p.text
  unique : ∀ path', (root.pushAll path').text = p.text → path' = path

theorem readsAs_decoded (p : Pointer) : p.ReadsAs p.decoded where
  splits _ := splitsInto_iff
  decode := map_decode_tokens p
  toDecoded := rfl
  rebuilt := by rw [pushAll_decoded]
  unique path' h := by rw [← pushAll_decoded p] at h; exact root_pushAll_injective h

theorem isPointer_iff_exists_pushAll {s : String} :
    isPointer s.toList = true ↔ ∃ path, (root.pushAll path).text = s := by
  constructor
  · intro h
    exact ⟨decoded ⟨s, h⟩, congrArg text (pushAll_decoded ⟨s, h⟩)⟩
  · rintro ⟨path, rfl⟩
    exact (root.pushAll path).valid

/-- A text is a pointer exactly if pushing texts onto the root writes it. It then reads as these
texts and no others, and what is left behind its first token is a pointer again. -/
theorem isPointer_iff_and_readsAs :
    (∀ s : String, isPointer s.toList = true ↔ ∃ path, (root.pushAll path).text = s) ∧
    (∀ path, (root.pushAll path).text.toList = written path) ∧
    (∀ s path, (root.pushAll path).text = s → ∃ p, ofText? s = some p ∧ p.ReadsAs path) ∧
    (∀ p : Pointer, p.splitFirst?.map (fun e => (e.1.raw.toList, e.2.text.toList)) =
      cutFirst? p.text.toList) ∧
    ∀ s t rest, isPointer s = true → cutFirst? s = some (t, rest) →
      s = '/' :: t ++ rest ∧ '/' ∉ t ∧ escapesClosed t = true ∧ isPointer rest = true := by
  refine ⟨fun _ => isPointer_iff_exists_pushAll, toList_text_root_pushAll, ?_, splitFirst?_map,
    fun _ _ _ => isPointer_of_cutFirst?⟩
  rintro _ path rfl
  refine ⟨root.pushAll path, ofText?_eq_some_iff.2 rfl, ?_⟩
  have hreads := readsAs_decoded (root.pushAll path)
  rwa [decoded_pushAll, decoded_root, List.nil_append] at hreads

/-- An empty text, a slash, and tildes of which one is followed by an escape's end. -/
theorem readsAs_escapes :
    (root.pushAll ["", "a/b", "~01"]).text = "//a~1b/~001" ∧
    (∃ p, ofText? "//a~1b/~001" = some p ∧ p.ReadsAs ["", "a/b", "~01"]) ∧
    isPointer "//a~1b/~001".toList = true ∧
    cutFirst? "//a~1b/~001".toList = some ([], "/a~1b/~001".toList) ∧
    isPointer "/a~1b/~001".toList = true := by
  have htext : (root.pushAll ["", "a/b", "~01"]).text = "//a~1b/~001" := by decide +kernel
  have hpointer : isPointer "//a~1b/~001".toList = true := by decide
  have hcut : cutFirst? "//a~1b/~001".toList = some ([], "/a~1b/~001".toList) := by decide
  obtain ⟨-, -, hreads, -, hrest⟩ := isPointer_iff_and_readsAs
  exact ⟨htext, hreads _ _ htext, hpointer, hcut, (hrest _ _ _ hpointer hcut).2.2.2⟩

example : isPointer "a/b".toList = false ∧ isPointer "/a~".toList = false ∧
    isPointer "/a~2".toList = false := by decide

end SelectiveDisclosure.Pointer
