import SelectiveDisclosure.Json.Printer
import SelectiveDisclosure.Json.Parser

/-!
# JSON pointers

A pointer is a text of reference tokens, each after a slash, in which a tilde only opens `~0` or
`~1`. Pushing a token escapes it, so a pushed token can hold any character.
-/

set_option autoImplicit false

namespace SelectiveDisclosure

namespace Pointer

/-- Every tilde opens one of the two escapes. -/
def escapesClosed : List Char → Bool
  | [] => true
  | '~' :: '0' :: r => escapesClosed r
  | '~' :: '1' :: r => escapesClosed r
  | c :: r => c != '~' && escapesClosed r

def isPointer (s : List Char) : Bool :=
  (match s with
    | [] => true
    | c :: _ => c == '/') && escapesClosed s

def escapedChar (c : Char) : List Char :=
  if c = '~' then ['~', '0'] else if c = '/' then ['~', '1'] else [c]

def escaped (s : List Char) : List Char :=
  s.flatMap escapedChar

theorem escapesClosed_append {s t : List Char} (hs : escapesClosed s = true)
    (ht : escapesClosed t = true) : escapesClosed (s ++ t) = true := by
  fun_induction escapesClosed s with
  | case1 => exact ht
  | case2 r ih => exact ih hs
  | case3 r ih => exact ih hs
  | case4 c r h0 h1 ih =>
    simp only [Bool.and_eq_true, bne_iff_ne, ne_eq] at hs
    have hc : c ≠ '~' := hs.1
    rw [List.cons_append, escapesClosed]
    · simp [hc, ih hs.2]
    · intro _ h; exact absurd h hc
    · intro _ h; exact absurd h hc

theorem escapesClosed_escapedChar (c : Char) : escapesClosed (escapedChar c) = true := by
  unfold escapedChar
  split
  · rfl
  · split
    · rfl
    · next h _ =>
      rw [escapesClosed]
      · simp [h, escapesClosed]
      · intro _ h'; exact absurd h' h
      · intro _ h'; exact absurd h' h

theorem escapesClosed_escaped (s : List Char) : escapesClosed (escaped s) = true := by
  induction s with
  | nil => rfl
  | cons c r ih => exact escapesClosed_append (escapesClosed_escapedChar c) ih

theorem escapesClosed_of_isPointer {s : List Char} (h : isPointer s = true) :
    escapesClosed s = true :=
  (Bool.and_eq_true_iff.1 h).2

theorem isPointer_push {s : List Char} (h : isPointer s = true) (token : List Char) :
    isPointer (s ++ '/' :: escaped token) = true := by
  have hc : escapesClosed (s ++ '/' :: escaped token) = true := by
    refine escapesClosed_append (escapesClosed_of_isPointer h) ?_
    rw [escapesClosed] <;> simp [escapesClosed_escaped]
  cases s with
  | nil => simpa [isPointer] using hc
  | cons c r =>
    simp only [isPointer, Bool.and_eq_true] at h
    simp only [isPointer, List.cons_append, Bool.and_eq_true]
    exact ⟨h.1, hc⟩

end Pointer

structure Pointer where
  text : String
  valid : Pointer.isPointer text.toList = true
  deriving DecidableEq

/-- A reference token as it stands in a pointer, still escaped. -/
structure Pointer.Token where
  raw : String
  deriving DecidableEq, Repr

namespace Pointer.Token

/-- Writes `new` for every `~` that is followed by the given character. -/
def replaced (escape new : Char) : List Char → List Char
  | [] => []
  | [c] => [c]
  | c :: d :: r =>
    if c = '~' ∧ d = escape then new :: replaced escape new r else c :: replaced escape new (d :: r)

/-- The slash comes first, so that `~01` stands for `~1`. -/
def decode (t : Token) : String :=
  String.ofList (replaced '0' '~' (replaced '1' '/' t.raw.toList))

def toDecoded (t : Token) : String :=
  if '~' ∈ t.raw.toList then t.decode else t.raw

/-- An index has no leading zero and is below `2^64`. -/
def index? (t : Token) : Option Nat :=
  match t.raw.toList with
  | ['0'] => some 0
  | c :: r =>
    if '1' ≤ c ∧ c ≤ '9' ∧ r.all Char.isDigit then
      let n := Nat.ofDigitChars 10 (c :: r) 0
      if n < 0x10000000000000000 then some n else none
    else none
  | [] => none

end Pointer.Token

namespace Pointer

def root : Pointer := ⟨"", by decide⟩

def ofText? (s : String) : Option Pointer :=
  if h : isPointer s.toList = true then some ⟨s, h⟩ else none

def isRoot (p : Pointer) : Bool :=
  p.text.toList.isEmpty

def push (p : Pointer) (token : String) : Pointer :=
  ⟨p.text ++ String.ofList ('/' :: escaped token.toList), by
    simpa using isPointer_push p.valid token.toList⟩

def pushIndex (p : Pointer) (i : Nat) : Pointer :=
  p.push (String.ofList (Nat.toDigits 10 i))

theorem isPointer_dropWhile {s : List Char} (h : escapesClosed s = true) :
    isPointer (s.dropWhile (· != '/')) = true := by
  have hd : escapesClosed (s.dropWhile (· != '/')) = true := by
    fun_induction escapesClosed s with
    | case1 => rfl
    | case2 r ih => simpa using ih h
    | case3 r ih => simpa using ih h
    | case4 c r h0 h1 ih =>
      rw [List.dropWhile_cons]
      split
      · exact ih (Bool.and_eq_true_iff.1 h).2
      · rw [escapesClosed]
        · exact h
        · exact h0
        · exact h1
  cases he : s.dropWhile (· != '/') with
  | nil => rfl
  | cons c r =>
    have hc : (c != '/') = false := by
      have hne : s.dropWhile (· != '/') ≠ [] := by simp [he]
      have := List.head_dropWhile_not (· != '/') hne
      simpa [he] using this
    rw [he] at hd
    simp only [isPointer, hd, Bool.and_true]
    simpa using hc

theorem escapesClosed_tail {r : List Char} (h : isPointer ('/' :: r) = true) :
    escapesClosed r = true := by
  have := escapesClosed_of_isPointer h
  rw [escapesClosed] at this
  · simpa using this
  · intro _ h'; exact absurd h' (by decide)
  · intro _ h'; exact absurd h' (by decide)

def splitFirst? (p : Pointer) : Option (Token × Pointer) :=
  match h : p.text.toList with
  | '/' :: r =>
    some (⟨String.ofList (r.takeWhile (· != '/'))⟩,
      ⟨String.ofList (r.dropWhile (· != '/')), by
        have hv := p.valid
        rw [h] at hv
        simpa using isPointer_dropWhile (escapesClosed_tail hv)⟩)
  | _ => none

def tokensUpTo : Nat → Pointer → List Token
  | 0, _ => []
  | k+1, p =>
    match p.splitFirst? with
    | some (t, rest) => t :: tokensUpTo k rest
    | none => []

/-- The tokens from first to last. Each takes at least its slash from the text. -/
def tokens (p : Pointer) : List Token :=
  tokensUpTo p.text.toList.length p

def decoded (p : Pointer) : List String :=
  p.tokens.map Token.toDecoded

def isAncestorOf (p q : Pointer) : Bool :=
  (p.text.toList ++ ['/']).isPrefixOf q.text.toList

instance : LT Pointer := ⟨fun p q => p.text < q.text⟩

instance (p q : Pointer) : Decidable (p < q) :=
  inferInstanceAs (Decidable (p.text < q.text))

def insertAscending (p : Pointer) : List Pointer → List Pointer
  | [] => [p]
  | q :: r => if p < q then p :: q :: r else if p = q then q :: r else q :: insertAscending p r

def ascending (ps : List Pointer) : List Pointer :=
  ps.foldl (fun sorted p => insertAscending p sorted) []

def ofJson? : Json.Value → Option Pointer
  | .string s => ofText? s
  | _ => none

end Pointer

structure InvalidPointer where
  text : String

namespace InvalidPointer

def message (e : InvalidPointer) : String :=
  s!"invalid JSON pointer `{e.text}`"

end InvalidPointer
end SelectiveDisclosure
