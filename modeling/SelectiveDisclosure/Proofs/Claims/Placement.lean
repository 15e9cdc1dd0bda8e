import Mathlib.Data.List.Zip
import SelectiveDisclosure.Proofs.Token.Revealed
import SelectiveDisclosure.Proofs.Claims.Clear
import SelectiveDisclosure.Proofs.Claims.Order

/-!
# Where disclosed values stand

The path of a disclosure leads through the revealed claims to the object or array that it belongs
to, and there to its value. Whatever is disclosed inside that value is found below it.
-/

set_option autoImplicit false

namespace SelectiveDisclosure

open Json Reveal

/-! ## Resolving pointers -/

namespace Json.Value

/-- The item whose index is written like the token, counted from an index on. -/
def itemAt? (token : String) : Nat → List Value → Option Value
  | _, [] => none
  | i, v :: r => if Pointer.indexText i = token then some v else itemAt? token (i + 1) r

def child? : Value → String → Option Value
  | .array items, token => itemAt? token 0 items
  | .object ms, token => Members.get? ms token
  | _, _ => none

def at? : Value → List String → Option Value
  | v, [] => some v
  | v, token :: path => (v.child? token).bind fun u => u.at? path

theorem itemAt?_indexText (i j : Nat) (items : List Value) :
    itemAt? (Pointer.indexText (i + j)) i items = items[j]? := by
  induction items generalizing i j with
  | nil => rfl
  | cons v r ih =>
    cases j with
    | zero => rw [itemAt?, Nat.add_zero, if_pos rfl, List.getElem?_cons_zero]
    | succ j =>
      have hne : Pointer.indexText i ≠ Pointer.indexText (i + (j + 1)) := fun heq => by
        have := Pointer.indexText_injective heq
        omega
      have hnext : i + (j + 1) = i + 1 + j := by omega
      rw [itemAt?, if_neg hne, hnext, ih, List.getElem?_cons_succ]

theorem child?_indexText (items : List Value) (i : Nat) :
    (array items).child? (Pointer.indexText i) = items[i]? := by
  have h := itemAt?_indexText 0 i items
  rwa [Nat.zero_add] at h

end Json.Value

def Pointer.resolve? (q : Pointer) (v : Value) : Option Value :=
  v.at? q.decoded

/-! ## Parts of an opening -/

def Concealed.StandsIn (whole : Value) (path : List String) : Concealed → Prop
  | .member name _ => ∃ front ms, path = front ++ [name] ∧ whole.at? front = some (.object ms)
  | .item _ => ∃ front i items,
    path = front ++ [Pointer.indexText i] ∧ whole.at? front = some (.array items)

theorem Concealed.StandsIn.below {whole u : Value} {token : String} {path : List String}
    {c : Concealed} (hchild : whole.child? token = some u) (h : c.StandsIn u path) :
    c.StandsIn whole (token :: path) := by
  have hfront (front : List String) : whole.at? (token :: front) = u.at? front := by
    rw [Value.at?, hchild, Option.bind_some]
  cases c with
  | member name v =>
    obtain ⟨front, ms, rfl, hparent⟩ := h
    exact ⟨token :: front, ms, rfl, (hfront front).trans hparent⟩
  | item v =>
    obtain ⟨front, i, items, rfl, hparent⟩ := h
    exact ⟨token :: front, i, items, rfl, (hfront front).trans hparent⟩

namespace Reveal.Opening

section Parts
variable (D : String → Concealed → Prop) (H : String → Prop)

/-- What a digest discloses stands at its path, opened, and the digests met in it are met after
its own. -/
structure IsPart (whole : Value) (met : List String) (e : String × List String) (c : Concealed)
    (o : Opening) : Prop where
  stands : D e.1 c
  opens : Opens D H o c.value
  at? : whole.at? e.2 = some o.value
  parent : c.StandsIn whole e.2
  met : (e.1 :: o.digests).Sublist met

def HasPart (whole : Value) (met : List String) (e : String × List String) : Prop :=
  ∃ c o, IsPart D H whole met e c o

variable {D H} {whole : Value} {met : List String} {token : String} {o : Opening}

theorem HasPart.mono {met' : List String} {e : String × List String}
    (h : HasPart D H whole met e) (hsub : met.Sublist met') : HasPart D H whole met' e := by
  obtain ⟨c, o, h⟩ := h
  exact ⟨c, o, { h with met := h.met.trans hsub }⟩

theorem HasPart.below {u : Value} {e : String × List String} (hchild : whole.child? token = some u)
    (h : HasPart D H u met e) : HasPart D H whole met (under token e) := by
  obtain ⟨c, o, h⟩ := h
  refine ⟨c, o, h.stands, h.opens, ?_, h.parent.below hchild, h.met⟩
  rw [under, Value.at?, hchild, Option.bind_some, h.at?]

theorem hasPart_of_mem_slotPaths_none (hchild : whole.child? token = some o.value)
    (ho : ∀ e ∈ o.paths, HasPart D H o.value o.digests e) :
    ∀ e ∈ slotPaths token none o, HasPart D H whole o.digests e := by
  intro e he
  have hmem : e ∈ o.paths.map (under token) := he
  obtain ⟨e', he', rfl⟩ := List.mem_map.1 hmem
  exact (ho e' he').below hchild

theorem hasPart_of_mem_slotPaths_some {g : String} {c : Concealed} (hg : D g c)
    (hopens : Opens D H o c.value) (hparent : c.StandsIn whole [token])
    (hchild : whole.child? token = some o.value)
    (ho : ∀ e ∈ o.paths, HasPart D H o.value o.digests e) :
    ∀ e ∈ slotPaths token (some g) o, HasPart D H whole (g :: o.digests) e := by
  intro e he
  rcases List.mem_cons.1 he with rfl | he
  · refine ⟨c, o, hg, hopens, ?_, hparent, List.Sublist.refl _⟩
    rw [Value.at?, hchild]
    rfl
  · exact (hasPart_of_mem_slotPaths_none hchild ho e he).mono (List.sublist_cons_self _ _)

mutual

theorem hasPart_of_mem_paths (o : Opening) {v : Value} (h : Opens D H o v) :
    ∀ e ∈ o.paths, HasPart D H o.value o.digests e := by
  cases o with
  | leaf u => exact fun e he => nomatch he
  | array cells =>
    obtain ⟨items, rfl, hitems⟩ := h
    exact hasPart_of_mem_cellPaths cells hitems 0 rfl
  | object withheld members =>
    obtain ⟨ms, ds, slots, rfl, -, -, hasc, -, -, hmembers⟩ := h
    have hnames : (Members.names (memberValues members)).Nodup := by
      rw [names_memberValues, ← names_of_opensMembers hmembers]
      exact Members.nodup_names hasc
    intro e he
    apply (hasPart_of_mem_memberPaths members hmembers
      (fun m hm => Members.get?_of_mem_of_nodup hnames hm) e he).mono
    exact (List.sublist_append_left _ _).append (List.Sublist.refl _)

theorem hasPart_of_mem_cellPaths (cells : List (Cell Opening)) {items all : List Value}
    (h : OpensItems D H cells items) (i : Nat) (hall : all.drop i = cellValues cells) :
    ∀ e ∈ cellPaths i cells, HasPart D H (.array all) (cellDigests cells) e := by
  have hslot {u : Value} {rest : List Value} (hall : all.drop i = u :: rest) :
      (Value.array all).child? (Pointer.indexText i) = some u ∧ all.drop (i + 1) = rest := by
    constructor
    · rw [Value.child?_indexText, ← Nat.add_zero i, ← List.getElem?_drop, hall,
        List.getElem?_cons_zero]
    · rw [← List.tail_drop, hall, List.tail_cons]
  cases cells with
  | nil => exact fun e he => nomatch he
  | cons cell r =>
    cases cell with
    | clear o =>
      obtain ⟨v, rest, rfl, -, ho, hr⟩ := h
      obtain ⟨hchild, hnext⟩ := hslot hall
      rw [cellPaths_clear, List.forall_mem_append]
      constructor
      · intro e he
        exact (hasPart_of_mem_slotPaths_none hchild (hasPart_of_mem_paths o ho) e he).mono
          (List.sublist_append_left _ _)
      · intro e he
        exact (hasPart_of_mem_cellPaths r hr (i + 1) hnext e he).mono
          (List.sublist_append_right _ _)
    | disclosed g o =>
      obtain ⟨v, rest, rfl, -, ⟨u, hu, ho⟩, hr⟩ := h
      obtain ⟨hchild, hnext⟩ := hslot hall
      have hparent : (Concealed.item u).StandsIn (.array all) [Pointer.indexText i] :=
        ⟨[], i, all, rfl, rfl⟩
      rw [cellPaths_disclosed, List.forall_mem_append]
      constructor
      · intro e he
        exact (hasPart_of_mem_slotPaths_some hu ho hparent hchild
          (hasPart_of_mem_paths o ho) e he).mono (List.sublist_append_left _ _)
      · intro e he
        exact (hasPart_of_mem_cellPaths r hr (i + 1) hnext e he).mono
          (List.sublist_append_right _ _)
    | withheld g =>
      obtain ⟨v, rest, rfl, -, -, hr⟩ := h
      intro e he
      exact (hasPart_of_mem_cellPaths r hr i hall e he).mono (List.sublist_cons_self _ _)

theorem hasPart_of_mem_memberPaths (members : List (String × Option String × Opening))
    {slots : List (String × Option String × Value)} (h : OpensMembers D H members slots)
    {all : Members} (hall : ∀ m ∈ memberValues members, Members.get? all m.1 = some m.2) :
    ∀ e ∈ markPaths members ++ memberPaths members,
      HasPart D H (.object all) (marksOf members ++ memberDigests members) e := by
  cases members with
  | nil => exact fun e he => nomatch he
  | cons m r =>
    obtain ⟨k, mark, o⟩ := m
    obtain ⟨v, rest, rfl, hd, ho, hr⟩ := h
    obtain ⟨hget, hall⟩ := List.forall_mem_cons.1 hall
    have hchild : (Value.object all).child? k = some o.value := hget
    have hparts := hasPart_of_mem_paths o ho
    intro e he
    rcases List.mem_append.1 ((perm_paths_cons k mark o r).mem_iff.1 he) with he | he
    · cases mark with
      | none =>
        exact (hasPart_of_mem_slotPaths_none hchild hparts e he).mono
          ((List.sublist_append_left _ _).trans (List.sublist_append_right _ _))
      | some g =>
        have hparent : (Concealed.member k v).StandsIn (.object all) [k] := ⟨[], all, rfl, rfl⟩
        apply (hasPart_of_mem_slotPaths_some (hd g rfl) ho hparent hchild hparts e he).mono
        exact ((List.sublist_append_left _ _).trans (List.sublist_append_right _ _)).cons_cons g
    · have hmarks : (marksOf r).Sublist (marksOf ((k, mark, o) :: r)) :=
        (List.sublist_cons_self _ _).filterMap _
      exact (hasPart_of_mem_memberPaths r hr hall e he).mono
        (hmarks.append (List.sublist_append_right _ _))

end

end Parts

end Reveal.Opening

/-! ## Disclosures at their places -/

def Json.Value.LacksReserved : Value → Prop
  | .object ms => ∀ m ∈ ms, isReserved m.1 = false
  | _ => True

theorem Json.Value.everywhere_lacksReserved_iff {v : Value} :
    v.Everywhere LacksReserved ↔ Conceal.reservedIn? v = none := by
  induction v using Value.induct with
  | scalar v hdepth => cases v <;> first | exact iff_of_true trivial rfl | cases hdepth
  | array items ih =>
    rw [everywhere_array_iff, Conceal.reservedIn?, Conceal.reservedInItems?_eq_none_iff]
    exact (and_iff_right trivial).trans (forall₂_congr ih)
  | object ms ih =>
    rw [everywhere_object_iff, Conceal.reservedIn?, Conceal.reservedInMembers?_eq_none_iff,
      LacksReserved, ← forall₂_and]
    exact forall₂_congr fun m hm => and_congr_right' (ih m hm)

/-- The pointer leads to what the disclosure conceals, in an object under its name or in an
array. -/
structure Disclosure.StandsAt (d : Disclosure) (whole : Value) (q : Pointer) : Prop where
  resolves : (q.resolve? whole).isSome = true
  member : ∀ name v, d.concealed = .member name v →
    q.tokens.getLast?.map Pointer.Token.toDecoded = some name ∧
      ∃ (parent : Pointer) (ms : Members), q = parent.push name ∧
        parent.resolve? whole = some (.object ms)
  item : ∀ v, d.concealed = .item v →
    ∃ (parent : Pointer) (i : Nat) (items : List Value), q = parent.pushIndex i ∧
      parent.resolve? whole = some (.array items)
  value : d.concealed.value.Everywhere Value.LacksReserved →
    q.resolve? whole = some d.concealed.value

namespace Payload
variable {f : DigestFunction} {p : Payload} {ds : List Disclosure} {claims : Members}
  {ps : List Pointer}

theorem standsAt_of_mem_zip (hp : Value.Sorted (.object p.claims))
    (hds : ∀ d ∈ ds, Value.Sorted d.concealed.value) (h : p.reveal f ds = .ok (claims, ps))
    {d : Disclosure} {q : Pointer} (hdq : (d, q) ∈ ds.zip ps) :
    d.StandsAt (.object claims) q := by
  obtain ⟨o, ho, hclaims⟩ := exists_reveals hp hds h
  have hpath := (mem_paths_iff ho hclaims h).2 ⟨d, q, hdq, rfl, rfl⟩
  obtain ⟨c, u, hpart⟩ := o.hasPart_of_mem_paths ho.opens _ hpath
  obtain rfl : d.concealed = c := by
    obtain ⟨e, he, heq, rfl⟩ := (discloses_tableOf_iff ho.distinct).1 hpart.stands
    rw [List.inj_on_of_nodup_map ho.distinct he (List.of_mem_zip hdq).1 heq]
  have hresolve : q.resolve? (.object claims) = some u.value := hclaims ▸ hpart.at?
  have hparent := hpart.parent
  rw [hclaims] at hparent
  -- A pointer is known by its decoded tokens.
  have hpush {front : List String} {token : String} (hq : q.decoded = front ++ [token]) :
      q = (Pointer.root.pushAll front).push token ∧
        (Pointer.root.pushAll front).decoded = front := by
    have hfront : (Pointer.root.pushAll front).decoded = front := by
      rw [Pointer.decoded_pushAll, Pointer.decoded_root, List.nil_append]
    exact ⟨Pointer.decoded_injective (by rw [Pointer.decoded_push, hfront, hq]), hfront⟩
  refine ⟨by rw [hresolve]; rfl, fun name v hc => ?_, fun v hc => ?_, fun hfree => ?_⟩
  · rw [hc] at hparent
    obtain ⟨front, ms, hq, hms⟩ := hparent
    obtain ⟨hq, hfront⟩ := hpush hq
    refine ⟨?_, _, ms, hq, by rw [Pointer.resolve?, hfront]; exact hms⟩
    rw [hq, Pointer.tokens_push, List.getLast?_concat, Option.map_some,
      Pointer.Token.toDecoded_ofDecoded]
  · rw [hc] at hparent
    obtain ⟨front, i, items, hq, hitems⟩ := hparent
    obtain ⟨hq, hfront⟩ := hpush hq
    exact ⟨_, i, items, hq, by rw [Pointer.resolve?, hfront]; exact hitems⟩
  · rw [hresolve, value_of_opens_of_reservedIn? hpart.opens
      (Value.everywhere_lacksReserved_iff.1 hfree)]

end Payload

namespace Token.Decoded
open Payload

/-- A revealed token has each presented disclosure at a place of its own, where the claims have
what it conceals. -/
theorem standsAt_of_reveal (f : DigestFunction) (t : Decoded) (r : Revealed)
    (hp : Value.Sorted (.object t.jwt.payload.claims))
    (hds : ∀ d ∈ t.disclosures, Value.Sorted d.concealed.value) (h : t.reveal f = .ok r) :
    ∃ ps, t.jwt.payload.reveal f t.disclosures = .ok (r.claims, ps) ∧ ps.Nodup ∧
      ps.length = t.disclosures.length ∧ r.disclosures.Perm (ps.zip t.disclosures) ∧
      ∀ e ∈ r.disclosures, e.2.StandsAt (.object r.claims) e.1 := by
  obtain ⟨ps, hr, -, -, hperm, hlen⟩ := reveal_eq_ok hp hds h
  refine ⟨ps, hr, (nodup_places hp hds hr).2, hlen, hperm, ?_⟩
  rintro ⟨q, d⟩ he
  have hzip : (d, q) ∈ t.disclosures.zip ps := by
    rw [← List.zip_swap ps]
    exact List.mem_map.2 ⟨(q, d), hperm.mem_iff.1 he, rfl⟩
  exact standsAt_of_mem_zip hp hds hr hzip

theorem standsAt_of_reveal_nested :
    reveal HashAlgorithm.digest ⟨nestedToken, [nestedMember, nestedItem, innerMember]⟩ =
        .ok ⟨nestedToken.withPayload nestedClaims, some .sha256, nestedMap⟩ ∧
      (∀ e ∈ nestedMap, e.2.StandsAt (.object nestedClaims) e.1) ∧
      ((Pointer.root.push "m").push "n").resolve? (.object nestedClaims) =
        some (.bool false) := by
  obtain ⟨ps, -, -, -, -, hstands⟩ :=
    standsAt_of_reveal _ _ _ sorted_nested sorted_nestedDisclosures reveal_nestedToken
  have hinner := hstands ((Pointer.root.push "m").push "n", innerMember)
    (.tail _ (.tail _ (.head _)))
  exact ⟨reveal_nestedToken, hstands, hinner.value trivial⟩

end Token.Decoded

end SelectiveDisclosure
