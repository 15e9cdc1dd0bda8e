import SelectiveDisclosure.Proofs.Claims.Paths
import SelectiveDisclosure.Proofs.Json.Value
import SelectiveDisclosure.Proofs.Token.Digests

/-!
# Marking a part of an opening

Concealing a value does not change the tree to which everything opens but for one mark: the part
that was clear is now disclosed by a digest, and decoys may be hidden beside it.
-/

set_option autoImplicit false

namespace SelectiveDisclosure.Reveal

open Json

namespace Opening

/-! ## Trees without gaps -/

mutual

/-- No item of an array is hidden, so items stand where they are counted. -/
def Dense : Opening → Prop
  | .leaf _ => True
  | .array cells => DenseCells cells
  | .object _ members => DenseMembers members

def DenseCells : List (Cell Opening) → Prop
  | [] => True
  | .clear o :: r => Dense o ∧ DenseCells r
  | .disclosed _ o :: r => Dense o ∧ DenseCells r
  | .withheld _ :: _ => False

def DenseMembers : List (String × Option String × Opening) → Prop
  | [] => True
  | (_, _, o) :: r => Dense o ∧ DenseMembers r

end

def cellOf (mark : Option String) (o : Opening) : Cell Opening :=
  match mark with
  | none => .clear o
  | some g => .disclosed g o

/-! ## One member among others -/

section Members
variable (k : String) (mark : Option String) (o : Opening)
  (ma mb : List (String × Option String × Opening))

theorem memberValues_append (mb : List (String × Option String × Opening)) :
    memberValues (ma ++ mb) = memberValues ma ++ memberValues mb := by
  induction ma with
  | nil => rfl
  | cons m r ih =>
    obtain ⟨k, mark, o⟩ := m
    simp [memberValues, ih]

theorem denseMembers_append : DenseMembers (ma ++ mb) ↔ DenseMembers ma ∧ DenseMembers mb := by
  induction ma with
  | nil => simp [DenseMembers]
  | cons m r ih =>
    obtain ⟨k, mark, o⟩ := m
    simp [DenseMembers, ih, and_assoc]

variable {k mark o ma mb} in
theorem dense_object_middle {withheld : List String} :
    (object withheld (ma ++ (k, mark, o) :: mb)).Dense ↔
      DenseMembers ma ∧ o.Dense ∧ DenseMembers mb := by
  rw [Dense, denseMembers_append, DenseMembers]

theorem perm_paths_middle :
    (markPaths (ma ++ (k, mark, o) :: mb) ++ memberPaths (ma ++ (k, mark, o) :: mb)).Perm
      (slotPaths k mark o ++ (markPaths (ma ++ mb) ++ memberPaths (ma ++ mb))) := by
  induction ma with
  | nil => exact perm_paths_cons k mark o mb
  | cons m r ih =>
    obtain ⟨k', mark', o'⟩ := m
    refine (perm_paths_cons k' mark' o' _).trans ((ih.append_left _).trans ?_)
    rw [List.cons_append]
    refine List.Perm.trans ?_ ((perm_paths_cons k' mark' o' (r ++ mb)).symm.append_left _)
    exact List.perm_append_comm_assoc _ _ _

theorem marksOf_middle {α : Type} (a : α) (as bs : List (String × Option String × α)) :
    (marksOf (as ++ (k, mark, a) :: bs)).Perm (mark.toList ++ marksOf (as ++ bs)) := by
  rw [marksOf, marksOf, List.filterMap_append, List.filterMap_append]
  cases mark with
  | none => exact List.Perm.refl _
  | some g => exact List.perm_middle

theorem memberDigests_middle :
    (memberDigests (ma ++ (k, mark, o) :: mb)).Perm
      (o.digests ++ memberDigests (ma ++ mb)) := by
  induction ma with
  | nil => exact List.Perm.refl _
  | cons m r ih =>
    obtain ⟨k', mark', o'⟩ := m
    rw [List.cons_append, List.cons_append, memberDigests, memberDigests]
    apply (ih.append_left _).trans
    exact List.perm_append_comm_assoc _ _ _

variable {k o ma mb} in
theorem notMem_paths_of_member {withheld path : List String}
    (h : k :: path ∉ (object withheld (ma ++ (k, none, o) :: mb)).paths.map Prod.snd) :
    path ∉ o.paths.map Prod.snd := by
  intro hmem
  obtain ⟨e, he, rfl⟩ := List.mem_map.1 hmem
  refine h (List.mem_map.2 ⟨under k e, ?_, rfl⟩)
  rw [paths, (perm_paths_middle k none o ma mb).mem_iff]
  exact List.mem_append_left _ (List.mem_map_of_mem he)

end Members

theorem opensMembers_append {D : String → Concealed → Prop} {H : String → Prop}
    {members : List (String × Option String × Opening)}
    {as bs : List (String × Option String × Value)} :
    OpensMembers D H members (as ++ bs) ↔
      ∃ ma mb, members = ma ++ mb ∧ OpensMembers D H ma as ∧ OpensMembers D H mb bs := by
  constructor
  · intro h
    induction as generalizing members with
    | nil => exact ⟨[], members, rfl, by rw [OpensMembers], h⟩
    | cons s r ih =>
      cases members with
      | nil => rw [OpensMembers] at h; cases h
      | cons m mr =>
        obtain ⟨k, mark, o⟩ := m
        obtain ⟨v, rest, heq, hd, ho, hr⟩ := h
        cases heq
        obtain ⟨ma, mb, rfl, ha, hb⟩ := ih hr
        exact ⟨(k, mark, o) :: ma, mb, rfl, ⟨v, r, rfl, hd, ho, ha⟩, hb⟩
  · rintro ⟨ma, mb, rfl, ha, hb⟩
    induction ma generalizing as with
    | nil =>
      rw [OpensMembers] at ha
      subst ha
      exact hb
    | cons m r ih =>
      obtain ⟨k, mark, o⟩ := m
      obtain ⟨v, rest, rfl, hd, ho, hr⟩ := ha
      exact ⟨v, rest ++ bs, rfl, hd, ho, ih hr⟩

/-! ## One item among others -/

section Cells
variable (mark : Option String) (o : Opening) (ca cb : List (Cell Opening))

theorem cellValues_append : cellValues (ca ++ cb) = cellValues ca ++ cellValues cb := by
  induction ca with
  | nil => rfl
  | cons c r ih => cases c <;> simp [cellValues, ih]

theorem cellDigests_append : cellDigests (ca ++ cb) = cellDigests ca ++ cellDigests cb := by
  induction ca with
  | nil => rfl
  | cons c r ih => cases c <;> simp [cellDigests, ih]

theorem denseCells_append : DenseCells (ca ++ cb) ↔ DenseCells ca ∧ DenseCells cb := by
  induction ca with
  | nil => simp [DenseCells]
  | cons c r ih => cases c <;> simp [DenseCells, ih, and_assoc]

theorem cellDigests_middle :
    (cellDigests (ca ++ cellOf mark o :: cb)).Perm
      (mark.toList ++ o.digests ++ cellDigests (ca ++ cb)) := by
  rw [cellDigests_append, cellDigests_append]
  have hcons : cellDigests (cellOf mark o :: cb) =
      mark.toList ++ o.digests ++ cellDigests cb := by
    cases mark <;> rfl
  rw [hcons]
  exact List.perm_append_comm_assoc _ _ _

variable {ca}

theorem cellPaths_append (h : DenseCells ca) (i : Nat) :
    cellPaths i (ca ++ cb) = cellPaths i ca ++ cellPaths (i + ca.length) cb := by
  induction ca generalizing i with
  | nil => rfl
  | cons c r ih =>
    have hlen : i + (r.length + 1) = i + 1 + r.length := by omega
    cases c with
    | clear o =>
      rw [List.cons_append, cellPaths_clear, cellPaths_clear, ih h.2, List.length_cons, hlen,
        List.append_assoc]
    | disclosed g o =>
      rw [List.cons_append, cellPaths_disclosed, cellPaths_disclosed, ih h.2, List.length_cons,
        hlen, List.append_assoc]
    | withheld g => exact h.elim

theorem perm_cellPaths_middle (h : DenseCells ca) :
    (cellPaths 0 (ca ++ cellOf mark o :: cb)).Perm
      (slotPaths (Pointer.indexText ca.length) mark o ++
        (cellPaths 0 ca ++ cellPaths (ca.length + 1) cb)) := by
  rw [cellPaths_append _ h, Nat.zero_add]
  have hcons : cellPaths ca.length (cellOf mark o :: cb) =
      slotPaths (Pointer.indexText ca.length) mark o ++ cellPaths (ca.length + 1) cb := by
    cases mark <;> rfl
  rw [hcons]
  exact List.perm_append_comm_assoc _ _ _

variable {mark o cb} in
theorem dense_array_middle :
    (array (ca ++ cellOf mark o :: cb)).Dense ↔ DenseCells ca ∧ o.Dense ∧ DenseCells cb := by
  rw [Dense, denseCells_append]
  cases mark <;> rfl

variable {o cb} in
theorem notMem_paths_of_item {path : List String} (hdense : DenseCells ca)
    (h : Pointer.indexText ca.length :: path ∉
      (array (ca ++ cellOf none o :: cb)).paths.map Prod.snd) :
    path ∉ o.paths.map Prod.snd := by
  intro hmem
  obtain ⟨e, he, rfl⟩ := List.mem_map.1 hmem
  refine h (List.mem_map.2 ⟨under (Pointer.indexText ca.length) e, ?_, rfl⟩)
  rw [paths, (perm_cellPaths_middle none o cb hdense).mem_iff]
  exact List.mem_append_left _ (List.mem_map_of_mem he)

end Cells

theorem opensItems_append {D : String → Concealed → Prop} {H : String → Prop}
    {cells : List (Cell Opening)} {as bs : List Value} :
    OpensItems D H cells (as ++ bs) ↔ ∃ ca cb, cells = ca ++ cb ∧ ca.length = as.length ∧
      OpensItems D H ca as ∧ OpensItems D H cb bs := by
  constructor
  · intro h
    induction as generalizing cells with
    | nil => exact ⟨[], cells, rfl, rfl, by rw [OpensItems], h⟩
    | cons u r ih =>
      cases cells with
      | nil => rw [OpensItems] at h; cases h
      | cons c cr =>
        cases c with
        | clear o =>
          obtain ⟨v, rest, heq, hp, ho, hr⟩ := h
          cases heq
          obtain ⟨ca, cb, rfl, hlen, ha, hb⟩ := ih hr
          exact ⟨.clear o :: ca, cb, rfl, by simp [hlen], ⟨u, r, rfl, hp, ho, ha⟩, hb⟩
        | disclosed g o =>
          obtain ⟨v, rest, heq, hp, ho, hr⟩ := h
          cases heq
          obtain ⟨ca, cb, rfl, hlen, ha, hb⟩ := ih hr
          exact ⟨.disclosed g o :: ca, cb, rfl, by simp [hlen], ⟨u, r, rfl, hp, ho, ha⟩, hb⟩
        | withheld g =>
          obtain ⟨v, rest, heq, hp, hg, hr⟩ := h
          cases heq
          obtain ⟨ca, cb, rfl, hlen, ha, hb⟩ := ih hr
          exact ⟨.withheld g :: ca, cb, rfl, by simp [hlen], ⟨u, r, rfl, hp, hg, ha⟩, hb⟩
  · rintro ⟨ca, cb, rfl, -, ha, hb⟩
    induction ca generalizing as with
    | nil =>
      rw [OpensItems] at ha
      subst ha
      exact hb
    | cons c cr ih =>
      cases c with
      | clear o =>
        obtain ⟨v, rest, rfl, hp, ho, hr⟩ := ha
        exact ⟨v, rest ++ bs, rfl, hp, ho, ih hr⟩
      | disclosed g o =>
        obtain ⟨v, rest, rfl, hp, ho, hr⟩ := ha
        exact ⟨v, rest ++ bs, rfl, hp, ho, ih hr⟩
      | withheld g =>
        obtain ⟨v, rest, rfl, hp, hg, hr⟩ := ha
        exact ⟨v, rest ++ bs, rfl, hp, hg, ih hr⟩

end Opening

end SelectiveDisclosure.Reveal
