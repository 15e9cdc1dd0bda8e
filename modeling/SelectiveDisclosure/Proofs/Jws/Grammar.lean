import SelectiveDisclosure.Proofs.Token.Framing

/-!
# The grammar of a compact JWS

A range of octets is a JWS when it consists of three segments of symbols with points between them,
which is found out by counting points from its beginning. The parts of a JWS are cut out where its
first and its last point stand. Both agree on all octets, and nothing is cut outside of them.
-/

set_option autoImplicit false

namespace SelectiveDisclosure

/-! ## Ranges -/

namespace Octets
variable {bs part : Octets} {start stop : Nat}

def slice? (bs : Octets) (start stop : Nat) : Option Octets :=
  if start ≤ stop ∧ stop ≤ bs.length then some ((bs.take stop).drop start) else none

theorem slice?_append (before part behind : Octets) :
    slice? (before ++ part ++ behind) before.length (before.length + part.length) = some part := by
  have hstop : before.length + part.length = (before ++ part).length := by simp
  have hin : before.length ≤ before.length + part.length ∧
      before.length + part.length ≤ (before ++ part ++ behind).length := by
    simp only [List.length_append]
    omega
  rw [slice?, if_pos hin, hstop, List.take_left, List.drop_left]

theorem slice?_eq_some_iff : slice? bs start stop = some part ↔
    ∃ before behind, bs = before ++ part ++ behind ∧ before.length = start ∧
      before.length + part.length = stop := by
  constructor
  · intro h
    obtain ⟨⟨horder, hrange⟩, hpart⟩ := Option.ite_none_right_eq_some.1 h
    obtain rfl := Option.some.inj hpart
    refine ⟨bs.take start, bs.drop stop, ?_, ?_, ?_⟩
    · have htake : bs.take start = (bs.take stop).take start := by
        rw [List.take_take, Nat.min_eq_left horder]
      rw [htake, List.take_append_drop, List.take_append_drop]
    · rw [List.length_take]
      omega
    · simp only [List.length_take, List.length_drop]
      omega
  · rintro ⟨before, behind, rfl, rfl, rfl⟩
    exact slice?_append before part behind

/-- A range that ends with the octets at the latest is a slice of them, unless it is empty. -/
theorem drop_take_eq_iff (hne : part ≠ []) :
    (bs.take stop).drop start = part ↔ slice? bs start (min stop bs.length) = some part := by
  have htake : bs.take (min stop bs.length) = bs.take stop := List.take_eq_take_min.symm
  rw [slice?, htake]
  by_cases hin : start ≤ min stop bs.length ∧ min stop bs.length ≤ bs.length
  · rw [if_pos hin, Option.some.injEq]
  · have hempty : (bs.take stop).drop start = [] := by
      apply List.drop_eq_nil_of_le
      rw [List.length_take]
      omega
    rw [if_neg hin, hempty]
    exact iff_of_false hne.symm nofun

end Octets

def difference? (n m : Nat) : Option Nat :=
  if m ≤ n then some (n - m) else none

theorem difference?_add (n m : Nat) : difference? (n + m) m = some n := by
  rw [difference?, if_pos (Nat.le_add_left m n), Nat.add_sub_cancel]

namespace Base64Url

def alphabet : Octets :=
  Octets.ofText "ABCDEFGHIJKLMNOPQRSTUVWXYZabcdefghijklmnopqrstuvwxyz0123456789-_"

theorem isSymbol_iff_mem_alphabet (b : UInt8) : isSymbol b = true ↔ b ∈ alphabet := by
  have hall : ∀ n < 256, isSymbol (UInt8.ofNat n) = true ↔ UInt8.ofNat n ∈ alphabet := by
    decide +kernel
  have hb := hall b.toNat b.toNat_lt
  rwa [UInt8.ofNat_toNat] at hb

end Base64Url

namespace Jws

/-! ## Bounds of the parts

The header ends at the first point, and the signature starts behind the last one, which is searched
from the end. The payload is what stands between the two points. -/

section Bounds
variable (bs : Octets)

/-- How many octets stand in front of the first point, or none where there is no point. -/
def pointAt : Nat :=
  (bs.findIdx? (· == point)).getD 0

def headerEnd : Nat :=
  pointAt bs

def payloadStart : Nat :=
  headerEnd bs + 1

def signatureStart? : Option Nat :=
  difference? bs.length (pointAt bs.reverse)

def payloadEnd? : Option Nat := do
  difference? (← signatureStart? bs) 1

def headerAt? : Option Octets :=
  bs.slice? 0 (headerEnd bs)

def payloadAt? : Option Octets := do
  bs.slice? (payloadStart bs) (← payloadEnd? bs)

def signatureAt? : Option Octets := do
  bs.slice? (← signatureStart? bs) bs.length

def signingOctetsAt? : Option Octets := do
  bs.slice? 0 (← payloadEnd? bs)

end Bounds

theorem pointAt_append {xs : Octets} (h : point ∉ xs) (ys : Octets) :
    pointAt (xs ++ point :: ys) = xs.length := by
  have hfirst : (xs ++ point :: ys).findIdx? (· == point) = some xs.length := by
    induction xs with
    | nil => rfl
    | cons b r ih =>
      have hb : b ≠ point := Ne.symm (List.ne_of_not_mem_cons h)
      have hrest := ih (List.not_mem_of_not_mem_cons h)
      rw [List.cons_append, List.findIdx?_cons, beq_eq_false_iff_ne.2 hb, hrest]
      rfl
  rw [pointAt, hfirst]
  rfl

section Segments
variable {bs h p s : Octets} (hseg : Segments bs h p s)
include hseg

theorem Segments.headerEnd : headerEnd bs = h.length := by
  rw [Jws.headerEnd, hseg.octets,
    pointAt_append (Base64Url.notMem_of_isText not_isSymbol_point hseg.isText_header)]

theorem Segments.signatureStart? : signatureStart? bs = some (h.length + 1 + p.length + 1) := by
  have hreverse : bs.reverse = s.reverse ++ point :: (h ++ point :: p).reverse := by
    rw [hseg.octets]
    simp
  have hsignature : point ∉ s.reverse := by
    rw [List.mem_reverse]
    exact Base64Url.notMem_of_isText not_isSymbol_point hseg.isText_signature
  have hlength : bs.length = h.length + 1 + p.length + 1 + s.reverse.length := by
    rw [hseg.octets]
    simp only [List.length_append, List.length_cons, List.length_reverse]
    omega
  rw [Jws.signatureStart?, hreverse, pointAt_append hsignature, hlength, difference?_add]

theorem Segments.payloadEnd? : payloadEnd? bs = some (h.length + 1 + p.length) := by
  rw [Jws.payloadEnd?, hseg.signatureStart?]
  exact difference?_add _ 1

theorem Segments.headerAt? : headerAt? bs = some h := by
  rw [Jws.headerAt?, hseg.headerEnd, Octets.slice?_eq_some_iff]
  exact ⟨[], point :: (p ++ point :: s), hseg.octets, rfl, Nat.zero_add _⟩

theorem Segments.payloadAt? : payloadAt? bs = some p := by
  rw [Jws.payloadAt?, hseg.payloadEnd?, payloadStart, hseg.headerEnd, Option.bind_eq_bind,
    Option.bind_some, Octets.slice?_eq_some_iff]
  refine ⟨h ++ [point], point :: s, ?_, List.length_append, ?_⟩
  · rw [hseg.octets]
    simp
  · rw [List.length_append, List.length_singleton]

theorem Segments.signatureAt? : signatureAt? bs = some s := by
  rw [Jws.signatureAt?, hseg.signatureStart?, Option.bind_eq_bind, Option.bind_some,
    Octets.slice?_eq_some_iff, hseg.octets]
  refine ⟨h ++ point :: (p ++ [point]), [], ?_, ?_, ?_⟩
  · simp
  · simp only [List.length_append, List.length_cons, List.length_nil]
    omega
  · simp only [List.length_append, List.length_cons, List.length_nil]
    omega

theorem Segments.signingOctetsAt? : signingOctetsAt? bs = some (h ++ point :: p) := by
  rw [Jws.signingOctetsAt?, hseg.payloadEnd?, Option.bind_eq_bind, Option.bind_some,
    Octets.slice?_eq_some_iff]
  refine ⟨[], point :: s, ?_, rfl, ?_⟩
  · rw [hseg.octets]
    simp
  · simp only [List.length_append, List.length_cons, List.length_nil]
    omega

theorem Segments.unique {h' p' s' : Octets} (hseg' : Segments bs h' p' s') :
    h' = h ∧ p' = p ∧ s' = s := by
  have hheader := hseg'.headerAt?.symm.trans hseg.headerAt?
  have hpayload := hseg'.payloadAt?.symm.trans hseg.payloadAt?
  have hsignature := hseg'.signatureAt?.symm.trans hseg.signatureAt?
  exact ⟨Option.some.inj hheader, Option.some.inj hpayload, Option.some.inj hsignature⟩

end Segments

/-! ## Ranges that are a JWS -/

theorem Segments.ne_nil {bs h p s : Octets} (hseg : Segments bs h p s) : bs ≠ [] := by
  rw [hseg.octets]
  simp

theorem isCompactRange_eq (bs : Octets) (start stop : Nat) :
    isCompactRange bs start stop = isCompact ((bs.take stop).drop start) := by
  rw [isCompact, isCompactRange, isCompactRange, List.take_length, List.drop_zero]

theorem isCompactRange_iff {bs : Octets} {start stop : Nat} :
    isCompactRange bs start stop = true ↔ ∃ before text behind h p s,
      bs = before ++ text ++ behind ∧ before.length = start ∧
        before.length + text.length = min stop bs.length ∧ Segments text h p s := by
  rw [isCompactRange_eq, isCompact_iff]
  constructor
  · rintro ⟨h, p, s, hseg⟩
    have hslice := (Octets.drop_take_eq_iff hseg.ne_nil).1 rfl
    obtain ⟨before, behind, hbs, hstart, hstop⟩ := Octets.slice?_eq_some_iff.1 hslice
    exact ⟨before, _, behind, h, p, s, hbs, hstart, hstop, hseg⟩
  · rintro ⟨before, text, behind, h, p, s, hbs, hstart, hstop, hseg⟩
    have hslice := Octets.slice?_eq_some_iff.2 ⟨before, behind, hbs, hstart, hstop⟩
    rw [(Octets.drop_take_eq_iff hseg.ne_nil).2 hslice]
    exact ⟨h, p, s, hseg⟩

/-- The parts of a JWS are its only segments, and none of the bounds at which they are cut out is
missing or out of range. -/
structure IsCut (j : Jws) : Prop where
  segments : Segments j.octets j.header j.payload j.signature
  unique : ∀ h p s, Segments j.octets h p s → h = j.header ∧ p = j.payload ∧ s = j.signature
  signingOctets : j.signingOctets = j.header ++ point :: j.payload
  headerAt : headerAt? j.octets = some j.header
  payloadAt : payloadAt? j.octets = some j.payload
  signatureAt : signatureAt? j.octets = some j.signature
  signingOctetsAt : signingOctetsAt? j.octets = some j.signingOctets

theorem isCut (j : Jws) : j.IsCut where
  segments := j.segments
  unique _ _ _ := j.segments.unique
  signingOctets := (parts_of_segments j.segments).2.2.2
  headerAt := j.segments.headerAt?
  payloadAt := j.segments.payloadAt?
  signatureAt := j.segments.signatureAt?
  signingOctetsAt := by
    rw [(parts_of_segments j.segments).2.2.2]
    exact j.segments.signingOctetsAt?

/-- Whatever the bounds, a range is accepted exactly if it is three segments over the alphabet with
points between them, of which the first and the last are not empty; and accepted octets are cut
into these segments. -/
theorem isCompactRange_iff_and_isCut :
    (∀ (bs : Octets) (start stop : Nat), isCompactRange bs start stop = true ↔
      ∃ before text behind h p s, bs = before ++ text ++ behind ∧ before.length = start ∧
        before.length + text.length = min stop bs.length ∧ Segments text h p s) ∧
    (∀ b, Base64Url.isSymbol b = true ↔ b ∈ Base64Url.alphabet) ∧
    ∀ bs : Octets, isCompact bs = true → ∃ j, ofOctets? bs = some j ∧ j.octets = bs ∧ j.IsCut := by
  refine ⟨fun _ _ _ => isCompactRange_iff, Base64Url.isSymbol_iff_mem_alphabet, fun bs hbs => ?_⟩
  exact ⟨⟨bs, hbs⟩, dif_pos hbs, rfl, isCut _⟩

theorem isCut_between :
    isCompactRange (Octets.ofText "~a.bc.d~") 1 7 = true ∧
      (∃ before text behind h p s, Octets.ofText "~a.bc.d~" = before ++ text ++ behind ∧
        before.length = 1 ∧ before.length + text.length = 7 ∧ Segments text h p s) ∧
      isCompact (Octets.ofText "a.bc.d") = true ∧
      ∃ j, ofOctets? (Octets.ofText "a.bc.d") = some j ∧ j.octets = Octets.ofText "a.bc.d" ∧
        j.IsCut := by
  obtain ⟨hrange, -, hcut⟩ := isCompactRange_iff_and_isCut
  have hin : isCompactRange (Octets.ofText "~a.bc.d~") 1 7 = true := by decide +kernel
  have halone : isCompact (Octets.ofText "a.bc.d") = true := by decide +kernel
  exact ⟨hin, (hrange _ 1 7).1 hin, halone, hcut _ halone⟩

/-- A range may end behind the last of the octets, but not before it begins. -/
example : isCompactRange (Octets.ofText "~a..b") 1 9 = true ∧
    isCompactRange (Octets.ofText "a..b") 4 0 = false ∧
    isCompactRange (Octets.ofText "a.b.c.d") 0 7 = false := by
  decide +kernel

end Jws

end SelectiveDisclosure
