import SelectiveDisclosure.Proofs.Octets
import SelectiveDisclosure.Proofs.Pointer.Ancestry

/-!
# Places visited from the inside

The ancestors of a place are less than it in the order of the octets, even where other texts stand
between them. So a sorted list of places, followed backwards, comes to what lies inside of a place
before it comes to the place.
-/

set_option autoImplicit false

namespace SelectiveDisclosure.Pointer

theorem lt_iff_octets {p q : Pointer} : p < q ↔ Octets.ofText p.text < Octets.ofText q.text :=
  Octets.ofText_lt_iff.symm

/-- Every place comes before all of its ancestors. -/
def InsideFirst (visited : List Pointer) : Prop :=
  ∀ (i j : Nat) (p a : Pointer), visited[i]? = some p → visited[j]? = some a →
    a.isAncestorOf p = true → i < j

theorem insideFirst_of_pairwise {visited : List Pointer}
    (h : visited.Pairwise fun p q => ¬p < q) : InsideFirst visited := by
  intro i j p a hi hj ha
  have hlt := lt_of_isAncestorOf ha
  obtain ⟨hin, rfl⟩ := List.getElem?_eq_some_iff.1 hi
  obtain ⟨hjn, rfl⟩ := List.getElem?_eq_some_iff.1 hj
  rcases Nat.lt_trichotomy i j with hij | rfl | hij
  · exact hij
  · exact absurd hlt (lt_irrefl _)
  · exact absurd hlt (List.pairwise_iff_getElem.1 h j i hjn hin hij)

theorem insideFirst_reverse {sorted : List Pointer}
    (h : sorted.Pairwise fun p q => ¬q < p) : InsideFirst sorted.reverse :=
  insideFirst_of_pairwise (List.pairwise_reverse.2 h)

theorem insideFirst_reverse_ascending (ps : List Pointer) :
    InsideFirst (ascending ps).reverse :=
  insideFirst_reverse ((pairwise_ascending ps).imp fun hlt hgt =>
    lt_irrefl _ (lt_trans hlt hgt))

/-- The ancestors of a place are those whose decoded tokens are the first of its own, but not all of
them, and their octets come before its octets. However a list of places has been sorted by its
octets, backwards it visits each place before the ancestors of the place. -/
theorem isAncestorOf_iff_and_insideFirst :
    (∀ p q : Pointer, p.isAncestorOf q = true ↔
      p.decoded <+: q.decoded ∧ p.decoded ≠ q.decoded) ∧
    (∀ p q : Pointer, p.isAncestorOf q = true →
      Octets.ofText p.text < Octets.ofText q.text) ∧
    (∀ ps sorted : List Pointer, sorted.Perm ps →
      sorted.Pairwise (fun p q => Octets.ofText p.text ≤ Octets.ofText q.text) →
        InsideFirst sorted.reverse) ∧
    ∀ ps : List Pointer,
      (ascending ps).Pairwise (fun p q => Octets.ofText p.text < Octets.ofText q.text) ∧
      (∀ p, p ∈ ascending ps ↔ p ∈ ps) ∧ InsideFirst (ascending ps).reverse := by
  refine ⟨fun _ _ => isAncestorOf_iff, fun _ _ h => lt_iff_octets.1 (lt_of_isAncestorOf h), ?_, ?_⟩
  · intro ps sorted _ hsorted
    refine insideFirst_reverse (hsorted.imp fun hle => ?_)
    rwa [lt_iff_octets, List.not_lt]
  · intro ps
    refine ⟨(pairwise_ascending ps).imp lt_iff_octets.1, fun _ => mem_ascending,
      insideFirst_reverse_ascending ps⟩

/-- Between a member and what lies inside of it stands a member whose name is longer. -/
def interleaved : List Pointer :=
  [root, root.push "a", root.push "a!", (root.push "a").push "", (root.push "a").push "b",
    (root.push "a").push "b"]

theorem insideFirst_interleaved :
    (root.push "a").isAncestorOf ((root.push "a").push "") = true ∧
    Octets.ofText (root.push "a").text < Octets.ofText ((root.push "a").push "").text ∧
    interleaved.Pairwise (fun p q => Octets.ofText p.text ≤ Octets.ofText q.text) ∧
    InsideFirst interleaved.reverse := by
  have hancestor : (root.push "a").isAncestorOf ((root.push "a").push "") = true := by
    decide +kernel
  have hsorted :
      interleaved.Pairwise (fun p q => Octets.ofText p.text ≤ Octets.ofText q.text) := by
    decide +kernel
  obtain ⟨-, hless, hvisited, -⟩ := isAncestorOf_iff_and_insideFirst
  exact ⟨hancestor, hless _ _ hancestor, hsorted,
    hvisited interleaved interleaved (List.Perm.refl _) hsorted⟩

end SelectiveDisclosure.Pointer
