import Mathlib.Data.Finmap
import Mathlib.Tactic.FinCases

/-!
# Hyper-parameters on the wire (`common/compressor/utils.h`)

`Serialize` writes the number of entries and then, for every entry in the iteration order
of the hash map, a blank, the key, a blank and the value. `Deserialize` reads the count and
that many pairs of tokens with `operator>>`. What a failed extraction leaves is modelled
too: a stream that failed stays so, and gives empty strings.

* `extractString_token`: one token is read up to the next blank.
* `readPairs_pairs`: the loop stores the entries in the order they were written.
* `deserialize_serialize`: the map comes back, for every iteration order.
-/
namespace Inca.L1.Kwargs

/-! ## The code -/

abbrev Str := List Char

/-- `kwargs_t` -/
abbrev Map := Finmap fun _ : Str => Str

/-- `std::isspace` in the C locale. -/
def isSpace (c : Char) : Bool := c ∈ [' ', '\t', '\n', '\x0b', '\x0c', '\r']

/-- What is left of an `istringstream`, and its `failbit`. -/
structure IStream where
  rest : Str
  fail : Bool
  deriving DecidableEq

/-- `is >> str`, for an empty `str`. -/
def extractString (is : IStream) : Str × IStream :=
  if is.fail then ([], is)
  else
    let rest := is.rest.dropWhile isSpace
    if rest = [] then ([], ⟨[], true⟩)
    else (rest.takeWhile (!isSpace ·), ⟨rest.dropWhile (!isSpace ·), false⟩)

/-- A sign in front of a number. -/
def extractSign : Str → Bool × Str
  | '-' :: rest => (true, rest)
  | '+' :: rest => (false, rest)
  | rest => (false, rest)

/-- `is >> size`, for a `size_t` that is 0: a number that does not fit is the greatest one and
sets the `failbit`, a negative one is taken modulo `2 ^ 64`. -/
def extractSize (is : IStream) : Nat × IStream :=
  if is.fail then (0, is)
  else
    let (negative, rest) := extractSign (is.rest.dropWhile isSpace)
    let digits := rest.takeWhile Char.isDigit
    let rest := rest.dropWhile Char.isDigit
    if digits = [] then (0, ⟨rest, true⟩)
    else
      let value := Nat.ofDigitChars 10 digits 0
      if value < 2 ^ 64 then (if negative then (2 ^ 64 - value) % 2 ^ 64 else value, ⟨rest, false⟩)
      else (2 ^ 64 - 1, ⟨rest, true⟩)

/-- The loop of `Serialize`, over the entries in iteration order. -/
def pairs : List (Σ _ : Str, Str) → Str
  | [] => []
  | ⟨key, val⟩ :: l => ' ' :: key ++ (' ' :: val ++ pairs l)

/-- mirrors byteps/byteps/common/compressor/utils.h:39-46 -/
def serialize (l : List (Σ _ : Str, Str)) : Str := Nat.toDigits 10 l.length ++ pairs l

/-- The loop of `Deserialize`, with `n` rounds to go. -/
def readPairs : Nat → IStream → Map → Map
  | 0, _, kwargs => kwargs
  | n + 1, is, kwargs =>
    let (key, is) := extractString is
    let (val, is) := extractString is
    readPairs n is (kwargs.insert key val)

/-- mirrors byteps/byteps/common/compressor/utils.h:54-67 -/
def deserialize (content : Str) : Map :=
  let (size, is) := extractSize ⟨content, false⟩
  readPairs size is ∅

/-! ## Tokens -/

/-- Non-empty and free of whitespace. -/
def Token (s : Str) : Prop := s ≠ [] ∧ ∀ c ∈ s, isSpace c = false

instance (s : Str) : Decidable (Token s) := @instDecidableAnd _ _ _ (List.decidableBAll _ s)

/-- A token ends where `rest` begins. -/
def Ends (rest : Str) : Prop := ∀ c r, rest = c :: r → isSpace c = true

theorem ends_space (rest : Str) : Ends (' ' :: rest) := by
  intro c r h
  cases h
  rfl

theorem ends_pairs (l : List (Σ _ : Str, Str)) : Ends (pairs l) := by
  cases l with
  | nil =>
    intro c r h
    cases h
  | cons e l => exact ends_space _

/-- The longest part of `s ++ rest` that satisfies `p` is `s`. -/
theorem while_append {p : Char → Bool} {s rest : Str} (hs : ∀ c ∈ s, p c = true)
    (hrest : ∀ c r, rest = c :: r → p c = false) :
    (s ++ rest).takeWhile p = s ∧ (s ++ rest).dropWhile p = rest := by
  rw [List.takeWhile_append_of_pos hs, List.dropWhile_append_of_pos hs]
  cases rest with
  | nil => exact ⟨List.append_nil s, rfl⟩
  | cons c r =>
    have hc : ¬p c = true := by
      rw [hrest c r rfl]
      exact Bool.false_ne_true
    rw [List.takeWhile_cons_of_neg hc, List.dropWhile_cons_of_neg hc, List.append_nil]
    exact ⟨rfl, rfl⟩

/-- A character that is no whitespace in front. -/
theorem dropWhile_isSpace {s : Str} (h : ∀ c r, s = c :: r → isSpace c = false) : s.dropWhile isSpace = s :=
  (while_append (fun _ hc => absurd hc List.not_mem_nil) h).2

theorem extractString_token {s rest : Str} (hs : Token s) (hrest : Ends rest) :
    extractString ⟨' ' :: s ++ rest, false⟩ = (s, ⟨rest, false⟩) := by
  have hdrop : (' ' :: s ++ rest).dropWhile isSpace = s ++ rest := by
    rw [List.cons_append, List.dropWhile_cons_of_pos rfl]
    apply dropWhile_isSpace
    intro c r h
    cases s with
    | nil => exact absurd rfl hs.1
    | cons d s =>
      obtain ⟨hd, -⟩ := List.cons.inj h
      rw [← hd]
      exact hs.2 d List.mem_cons_self
  obtain ⟨htake, hleft⟩ := while_append (p := (!isSpace ·))
    (fun c hc => by rw [hs.2 c hc]; rfl) (fun c r h => by rw [hrest c r h]; rfl)
  have hne : s ++ rest ≠ [] := fun h => hs.1 (List.append_eq_nil_iff.mp h).1
  simp only [extractString, Bool.false_eq_true, if_false, hdrop, if_neg hne, htake, hleft]

/-! ## The count -/

theorem isSpace_of_isDigit {c : Char} (h : c.isDigit = true) : isSpace c = false := by
  cases hc : isSpace c with
  | false => rfl
  | true =>
    have hmem : c ∈ [' ', '\t', '\n', '\x0b', '\x0c', '\r'] := of_decide_eq_true hc
    fin_cases hmem <;> cases h

theorem isDigit_of_isSpace {c : Char} (h : isSpace c = true) : c.isDigit = false := by
  cases hc : c.isDigit with
  | false => rfl
  | true => exact absurd h (by rw [isSpace_of_isDigit hc]; exact Bool.false_ne_true)

theorem extractSign_of_isDigit {c : Char} (h : c.isDigit = true) (rest : Str) :
    extractSign (c :: rest) = (false, c :: rest) := by
  unfold extractSign
  split
  · next heq =>
    cases heq
    cases h
  · next heq =>
    cases heq
    cases h
  · rfl

theorem extractSize_toDigits {n : Nat} (hn : n < 2 ^ 64) {rest : Str} (hrest : Ends rest) :
    extractSize ⟨Nat.toDigits 10 n ++ rest, false⟩ = (n, ⟨rest, false⟩) := by
  have hdigit : ∀ c ∈ Nat.toDigits 10 n, c.isDigit = true := fun c hc =>
    Nat.isDigit_of_mem_toDigits (by omega) (by omega) hc
  obtain ⟨htake, hleft⟩ := while_append hdigit fun c r h => isDigit_of_isSpace (hrest c r h)
  have hvalue : Nat.ofDigitChars 10 (Nat.toDigits 10 n) 0 = n := Nat.ofDigitChars_ten_toDigits
  -- the first digit stops the whitespace and is no sign
  obtain ⟨c, s, hcs⟩ := List.exists_cons_of_ne_nil (Nat.toDigits_ne_nil (n := n) (b := 10))
  have hc : c.isDigit = true := hdigit c (by rw [hcs]; exact List.mem_cons_self)
  have hsign : extractSign ((Nat.toDigits 10 n ++ rest).dropWhile isSpace) = (false, Nat.toDigits 10 n ++ rest) := by
    rw [hcs, List.cons_append, dropWhile_isSpace]
    · exact extractSign_of_isDigit hc _
    · intro d r h
      cases h
      exact isSpace_of_isDigit hc
  simp only [extractSize, Bool.false_eq_true, if_false, hsign, htake, hleft, if_neg Nat.toDigits_ne_nil, hvalue,
    if_pos hn]

/-! ## Round trip -/

/-- Keys and values are tokens. -/
def Tokens (l : List (Σ _ : Str, Str)) : Prop := ∀ e ∈ l, Token e.1 ∧ Token e.2

theorem readPairs_pairs {l : List (Σ _ : Str, Str)} (hl : Tokens l) (kwargs : Map) :
    readPairs l.length ⟨pairs l, false⟩ kwargs = l.foldl (fun m e => m.insert e.1 e.2) kwargs := by
  induction l generalizing kwargs with
  | nil => rfl
  | cons e l ih =>
    obtain ⟨hkey, hval⟩ := hl e List.mem_cons_self
    have hfirst : extractString ⟨' ' :: e.1 ++ (' ' :: e.2 ++ pairs l), false⟩ = (e.1, ⟨' ' :: e.2 ++ pairs l, false⟩) :=
      extractString_token hkey (ends_space _)
    rw [List.length_cons, pairs, readPairs, hfirst]
    simp only [extractString_token hval (ends_pairs l)]
    exact ih (fun e' he' => hl e' (List.mem_cons_of_mem _ he')) _

/-- Entries with new and different keys. -/
theorem entries_foldl_insert {l : List (Σ _ : Str, Str)} (hl : (l.map Sigma.fst).Nodup) {m : Map}
    (hm : ∀ e ∈ l, e.1 ∉ m) : (l.foldl (fun m e => m.insert e.1 e.2) m).entries = m.entries + l := by
  induction l generalizing m with
  | nil => exact (add_zero _).symm
  | cons e l ih =>
    rw [List.map_cons, List.nodup_cons] at hl
    have hrest : ∀ e' ∈ l, e'.1 ∉ m.insert e.1 e.2 := by
      intro e' he' hmem
      rcases Finmap.mem_insert.mp hmem with heq | hold
      · exact hl.1 (heq ▸ List.mem_map_of_mem he')
      · exact hm e' (List.mem_cons_of_mem _ he') hold
    rw [List.foldl_cons, ih hl.2 hrest, Finmap.entries_insert_of_notMem (hm e List.mem_cons_self),
      ← Multiset.cons_coe, Multiset.cons_add, Multiset.add_cons]

/-- **Round trip.** `l` is any order in which the entries of the map may be visited; their number is
a `size_t`. -/
theorem deserialize_serialize (kwargs : Map) (htokens : ∀ e ∈ kwargs.entries, Token e.1 ∧ Token e.2)
    (hsize : kwargs.entries.card < 2 ^ 64) (l : List (Σ _ : Str, Str)) (hl : (l : Multiset _) = kwargs.entries) :
    deserialize (serialize l) = kwargs := by
  rw [← hl] at htokens hsize
  rw [Multiset.coe_card] at hsize
  have hnodup : (l.map Sigma.fst).Nodup := by
    have h := kwargs.nodupKeys
    rw [← hl] at h
    exact Multiset.coe_nodupKeys.mp h
  unfold deserialize serialize
  rw [extractSize_toDigits hsize (ends_pairs l)]
  apply Finmap.ext
  show (readPairs l.length ⟨pairs l, false⟩ ∅).entries = kwargs.entries
  rw [readPairs_pairs htokens, entries_foldl_insert hnodup fun e _ => Finmap.notMem_empty, hl]
  exact zero_add _

/-- Two entries, in the order in which they were not inserted. -/
theorem deserialize_serialize_two :
    let l : List (Σ _ : Str, Str) := [⟨['k'], ['1', '0']⟩, ⟨['2'], ['s']⟩]
    let kwargs : Map := ((∅ : Map).insert ['2'] ['s']).insert ['k'] ['1', '0']
    serialize l = ['2', ' ', 'k', ' ', '1', '0', ' ', '2', ' ', 's'] ∧ deserialize (serialize l) = kwargs := by
  intro l kwargs
  have hl : (l : Multiset _) = kwargs.entries := by decide
  refine ⟨by decide, deserialize_serialize kwargs ?_ (by decide) l hl⟩
  intro e he
  rw [← hl, Multiset.mem_coe, List.mem_cons, List.mem_singleton] at he
  rcases he with rfl | rfl
  · exact ⟨by decide, by decide⟩
  · exact ⟨by decide, by decide⟩

end Inca.L1.Kwargs
