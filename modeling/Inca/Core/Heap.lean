import Mathlib.Data.List.Perm.Subperm

/-!
# Binary heaps in a list, with a comparator that may change

`std::push_heap` and `std::pop_heap` as sift-up and sift-down on a list
(entry `i` has its parent at `(i - 1) / 2`). `lt a b` is the `comp(a, b)` of
the C++ library: `a` comes after `b`, and the first entry of a heap is one
that nothing comes before.

The comparator is an argument of every call, so that a queue whose
comparator reads mutable state can be described with the comparator of the
moment. Whatever it is, both operations only permute (`pushHeap_perm`,
`popHeap_perm`); that the first entry is a maximum needs the heap property
for the comparator of the pop (`IsHeap.top`).

With one comparator, which is a strict weak order, both keep the heap property
(`pushHeap_isHeap`, `popHeap_isHeap`). While an entry is sifted, only the pairs
that it is in can be out of order: the one with its parent on the way up
(`UpOrder`), those with its children on the way down (`DownOrder`).
-/
namespace Inca.Heap

variable {α : Type} (lt : α → α → Bool)

/-- Move entry `i` towards the root while its parent is smaller. `i` rounds are enough. -/
def siftUp : Nat → List α → Nat → List α
  | 0, q, _ => q
  | n + 1, q, i =>
    match q[(i - 1) / 2]?, q[i]? with
    | some p, some x => if lt p x then siftUp n (q.swap ((i - 1) / 2) i) ((i - 1) / 2) else q
    | _, _ => q

/-- `std::push_heap`: the last entry is new. -/
def pushHeap (q : List α) : List α := siftUp lt (q.length - 1) q (q.length - 1)

/-- The larger child of entry `i`, the first one if they are equal. -/
def child (q : List α) (i : Nat) : Nat :=
  match q[2 * i + 1]?, q[2 * i + 2]? with
  | some l, some r => if lt l r then 2 * i + 2 else 2 * i + 1
  | _, _ => 2 * i + 1

/-- Move entry `i` towards the leaves while its larger child is larger than it. `q.length`
rounds are enough. -/
def siftDown : Nat → List α → Nat → List α
  | 0, q, _ => q
  | n + 1, q, i =>
    match q[i]?, q[child lt q i]? with
    | some x, some y => if lt x y then siftDown n (q.swap i (child lt q i)) (child lt q i) else q
    | _, _ => q

/-- `std::pop_heap` and taking the entry off the back: the last entry goes to the root and is
sifted down. -/
def popHeap : List α → Option (α × List α)
  | [] => none
  | x :: rest =>
    match rest.getLast? with
    | none => some (x, [])
    | some y => some (x, siftDown lt rest.length (y :: rest.dropLast) 0)

/-! ## Permutation -/

theorem siftUp_perm (n : Nat) (q : List α) (i : Nat) : (siftUp lt n q i).Perm q := by
  induction n generalizing q i with
  | zero => exact .refl q
  | succ n ih =>
    unfold siftUp
    split
    · split
      · exact (ih _ _).trans (List.swap_perm _ _ _)
      · exact .refl q
    · exact .refl q

theorem pushHeap_perm (q : List α) : (pushHeap lt q).Perm q := siftUp_perm lt _ q _

theorem siftDown_perm (n : Nat) (q : List α) (i : Nat) : (siftDown lt n q i).Perm q := by
  induction n generalizing q i with
  | zero => exact .refl q
  | succ n ih =>
    unfold siftDown
    split
    · split
      · exact (ih _ _).trans (List.swap_perm _ _ _)
      · exact .refl q
    · exact .refl q

/-- The popped entry is the first one; the others stay. -/
theorem popHeap_perm {q q' : List α} {x : α} (h : popHeap lt q = some (x, q')) :
    q[0]? = some x ∧ q.Perm (x :: q') := by
  cases q with
  | nil => cases h
  | cons a rest =>
    simp only [popHeap] at h
    split at h
    · rename_i hl
      cases h
      rw [List.getLast?_eq_none_iff.mp hl]
      exact ⟨rfl, .refl _⟩
    · rename_i y hl
      cases h
      refine ⟨rfl, .cons _ ?_⟩
      obtain ⟨mid, rfl⟩ := List.getLast?_eq_some_iff.mp hl
      refine (List.perm_append_singleton y mid).trans ?_
      rw [List.dropLast_concat]
      exact (siftDown_perm lt _ _ _).symm

theorem popHeap_cons (t : α) (q : List α) : ∃ rest, popHeap lt (t :: q) = some (t, rest) ∧ rest.Perm q := by
  obtain ⟨⟨x, rest⟩, hpop⟩ : ∃ r, popHeap lt (t :: q) = some r := by
    simp only [popHeap]
    split
    · exact ⟨_, rfl⟩
    · exact ⟨_, rfl⟩
  obtain ⟨hx, hperm⟩ := popHeap_perm lt hpop
  cases hx
  exact ⟨rest, hpop, ((List.perm_cons t).mp hperm).symm⟩

/-! ## The first entry -/

/-- No entry is larger than its parent. -/
def IsHeap (q : List α) : Prop :=
  ∀ i < q.length, 0 < i → ∀ x ∈ q[i]?, ∀ p ∈ q[(i - 1) / 2]?, lt p x = false

instance (q : List α) : Decidable (IsHeap lt q) :=
  inferInstanceAs (Decidable (∀ i < q.length, 0 < i → ∀ x ∈ q[i]?, ∀ p ∈ q[(i - 1) / 2]?, lt p x = false))

/-- Nothing is larger than the first entry of a heap. -/
theorem IsHeap.top {q : List α} (h : IsHeap lt q) {r : α} (hr : q[0]? = some r)
    (hirr : ∀ a, lt a a = false)
    (htr : ∀ a b c, lt a b = false → lt b c = false → lt a c = false) {x : α} (hx : x ∈ q) :
    lt r x = false := by
  obtain ⟨i, hi⟩ := List.mem_iff_getElem?.mp hx
  induction i using Nat.strongRecOn generalizing x with
  | ind i ih =>
    rcases Nat.eq_zero_or_pos i with rfl | hpos
    · rw [hr] at hi; cases hi; exact hirr r
    · have hlen := (List.getElem?_eq_some_iff.mp hi).1
      have hlt : (i - 1) / 2 < q.length := by omega
      have hp := List.getElem?_eq_getElem hlt
      exact htr _ _ _ (ih _ (by omega) (List.getElem_mem hlt) hp) (h i hlen hpos x hi _ hp)

/-- The heap property reads the comparator only on the entries. -/
theorem IsHeap.congr {lt' : α → α → Bool} {q : List α} (h : IsHeap lt q)
    (heq : ∀ a ∈ q, ∀ b ∈ q, lt' a b = lt a b) : IsHeap lt' q := by
  intro i hi hpos x hx p hp
  rw [heq p (List.mem_of_getElem? hp) x (List.mem_of_getElem? hx)]
  exact h i hi hpos x hx p hp

/-! ## Heaps stay heaps -/

/-- What the C++ library demands of a comparator. -/
structure StrictWeak : Prop where
  asymm : ∀ {a b}, lt a b = true → lt b a = false
  neg_trans : ∀ {a b c}, lt a b = false → lt b c = false → lt a c = false

theorem StrictWeak.irrefl {lt : α → α → Bool} (h : StrictWeak lt) (a : α) : lt a a = false := by
  cases haa : lt a a with
  | false => rfl
  | true => exact haa.symm.trans (h.asymm haa)

/-- Entry `j` is not larger than entry `i`, if both are there. -/
def Ordered (q : List α) (i j : Nat) : Prop := ∀ a ∈ q[i]?, ∀ b ∈ q[j]?, lt a b = false

theorem isHeap_iff {q : List α} : IsHeap lt q ↔ ∀ j, 0 < j → Ordered lt q ((j - 1) / 2) j := by
  constructor
  · intro h j hj a ha b hb
    exact h j (List.getElem?_eq_some_iff.mp hb).1 hj b hb a ha
  · intro h j _ hj b hb a ha
    exact h j hj a ha b hb

theorem getElem?_swap {q : List α} {i j : Nat} {x y : α} (hi : q[i]? = some x) (hj : q[j]? = some y) (k : Nat) :
    (q.swap i j)[k]? = if k = i then some y else if k = j then some x else q[k]? := by
  obtain ⟨hil, rfl⟩ := List.getElem?_eq_some_iff.mp hi
  obtain ⟨hjl, rfl⟩ := List.getElem?_eq_some_iff.mp hj
  by_cases hk : k < q.length
  · rw [List.getElem?_eq_getElem (by rwa [List.length_swap]), List.getElem_swap]
    simp only [hil, hjl, and_true, List.getElem?_eq_getElem hk]
    split
    · rfl
    · split
      · rfl
      · rfl
  · rw [if_neg (by omega), if_neg (by omega), List.getElem?_eq_none (by rw [List.length_swap]; omega),
      List.getElem?_eq_none (by omega)]

/-- Pairs of a list in which two entries were exchanged. -/
theorem ordered_swap_iff {q : List α} {i j : Nat} {x y : α} (hi : q[i]? = some x) (hj : q[j]? = some y) {a b : Nat} :
    Ordered lt (q.swap i j) a b ↔
      ∀ u ∈ (if a = i then some y else if a = j then some x else q[a]?),
        ∀ v ∈ (if b = i then some y else if b = j then some x else q[b]?), lt u v = false := by
  unfold Ordered
  rw [getElem?_swap hi hj, getElem?_swap hi hj]

/-- Entry `i` is sifted up. -/
structure UpOrder (q : List α) (i : Nat) : Prop where
  except : ∀ j, 0 < j → j ≠ i → Ordered lt q ((j - 1) / 2) j
  grand : 0 < i → ∀ c, 0 < c → (c - 1) / 2 = i → Ordered lt q ((i - 1) / 2) c

/-- Entry `i` is sifted down. -/
structure DownOrder (q : List α) (i : Nat) : Prop where
  except : ∀ j, 0 < j → (j - 1) / 2 ≠ i → Ordered lt q ((j - 1) / 2) j
  grand : 0 < i → ∀ c, 0 < c → (c - 1) / 2 = i → Ordered lt q ((i - 1) / 2) c

variable {lt}

theorem UpOrder.move (hlt : StrictWeak lt) {q : List α} {i : Nat} {p x : α} (h : UpOrder lt q i) (hi : 0 < i)
    (hp : q[(i - 1) / 2]? = some p) (hx : q[i]? = some x) (hpx : lt p x = true) :
    UpOrder lt (q.swap ((i - 1) / 2) i) ((i - 1) / 2) := by
  refine ⟨fun j hj hne => ?_, fun hpos c hc hparent => ?_⟩
  · rw [ordered_swap_iff lt hp hx]
    intro u hu v hv
    rw [if_neg hne] at hv
    by_cases hji : j = i
    · -- the old parent, below the new one
      subst hji
      rw [if_pos rfl] at hu hv
      cases hu; cases hv
      exact hlt.asymm hpx
    · rw [if_neg hji] at hv
      by_cases hsib : (j - 1) / 2 = (i - 1) / 2
      · rw [if_pos hsib] at hu
        cases hu
        exact hlt.neg_trans (hlt.asymm hpx) (h.except j hj hji p (hsib ▸ hp) v hv)
      · rw [if_neg hsib] at hu
        by_cases hch : (j - 1) / 2 = i
        · rw [if_pos hch] at hu
          cases hu
          exact h.grand hi j hj hch p hp v hv
        · rw [if_neg hch] at hu
          exact h.except j hj hji u hu v hv
  · rw [ordered_swap_iff lt hp hx]
    intro u hu v hv
    have hup := h.except ((i - 1) / 2) hpos (by omega)
    rw [if_neg (by omega), if_neg (by omega)] at hu
    rw [if_neg (by omega)] at hv
    by_cases hci : c = i
    · rw [if_pos hci] at hv
      cases hv
      exact hup u hu p hp
    · rw [if_neg hci] at hv
      exact hlt.neg_trans (hup u hu p hp) (h.except c hc hci p (hparent ▸ hp) v hv)

theorem UpOrder.finish {q : List α} {i : Nat} (h : UpOrder lt q i) (hi : 0 < i → Ordered lt q ((i - 1) / 2) i) :
    IsHeap lt q := by
  rw [isHeap_iff]
  intro j hj
  by_cases hji : j = i
  · subst hji
    exact hi hj
  · exact h.except j hj hji

theorem siftUp_isHeap (hlt : StrictWeak lt) {n : Nat} {q : List α} {i : Nat} (h : UpOrder lt q i) (hn : i ≤ n) :
    IsHeap lt (siftUp lt n q i) := by
  induction n generalizing q i with
  | zero => exact h.finish fun hi => absurd hi (by omega)
  | succ n ih =>
    unfold siftUp
    split
    · next p x hp hx =>
      split
      · next hpx =>
        have hi : 0 < i := by
          rcases Nat.eq_zero_or_pos i with rfl | hi
          · rw [hx] at hp
            cases hp
            rw [hlt.irrefl] at hpx
            cases hpx
          · exact hi
        exact ih (h.move hlt hi hp hx hpx) (by omega)
      · next hpx =>
        refine h.finish fun _ u hu v hv => ?_
        rw [hp] at hu
        rw [hx] at hv
        cases hu; cases hv
        exact eq_false_of_ne_true hpx
    · next hnone =>
      exact h.finish fun _ u hu v hv => absurd hv (hnone u v hu)

theorem pushHeap_isHeap (hlt : StrictWeak lt) {q : List α} (h : IsHeap lt q) (x : α) :
    IsHeap lt (pushHeap lt (q ++ [x])) := by
  rw [isHeap_iff] at h
  have hlen : (q ++ [x]).length - 1 = q.length := by simp
  refine siftUp_isHeap hlt ⟨fun j hj hne u hu v hv => ?_, fun _ c hc hparent u hu v hv => ?_⟩ (Nat.le_refl _)
  · have hjl := (List.getElem?_eq_some_iff.mp hv).1
    rw [hlen] at hne
    rw [List.length_append, List.length_singleton] at hjl
    rw [List.getElem?_append_left (by omega)] at hu hv
    exact h j hj u hu v hv
  · have hcl := (List.getElem?_eq_some_iff.mp hv).1
    rw [List.length_append, List.length_singleton] at hcl
    omega

theorem Ordered.of_some {q : List α} {i j : Nat} {x y : α} (hx : q[i]? = some x) (hy : q[j]? = some y)
    (h : lt x y = false) : Ordered lt q i j := by
  intro u hu v hv
  rw [hx] at hu
  rw [hy] at hv
  cases hu
  cases hv
  exact h

theorem Ordered.refl (hlt : StrictWeak lt) (q : List α) (i : Nat) : Ordered lt q i i := by
  intro u hu v hv
  rw [hu] at hv
  cases hv
  exact hlt.irrefl u

/-- The larger child, among those that are there. -/
theorem child_spec (hlt : StrictWeak lt) (q : List α) (i : Nat) :
    0 < child lt q i ∧ (child lt q i - 1) / 2 = i ∧
      (q[child lt q i]? = none → ∀ c, 0 < c → (c - 1) / 2 = i → q[c]? = none) ∧
      ∀ c, 0 < c → (c - 1) / 2 = i → Ordered lt q (child lt q i) c := by
  have htwo : ∀ c, 0 < c → (c - 1) / 2 = i → c = 2 * i + 1 ∨ c = 2 * i + 2 := by omega
  unfold child
  split
  · next l r hl hr =>
    split
    · next hlr =>
      refine ⟨by omega, by omega, fun h => absurd (hr.symm.trans h) (by simp), fun c hc hparent => ?_⟩
      rcases htwo c hc hparent with rfl | rfl
      · exact .of_some hr hl (hlt.asymm hlr)
      · exact .refl hlt q _
    · next hlr =>
      refine ⟨by omega, by omega, fun h => absurd (hl.symm.trans h) (by simp), fun c hc hparent => ?_⟩
      rcases htwo c hc hparent with rfl | rfl
      · exact .refl hlt q _
      · exact .of_some hl hr (eq_false_of_ne_true hlr)
  · next hnone =>
    refine ⟨by omega, by omega, fun h c hc hparent => ?_, fun c hc hparent => ?_⟩
    · rw [List.getElem?_eq_none_iff] at h ⊢
      omega
    · rcases htwo c hc hparent with rfl | rfl
      · exact .refl hlt q _
      · intro u hu v hv
        exact absurd hv (hnone u v hu)

theorem DownOrder.move (hlt : StrictWeak lt) {q : List α} {i : Nat} {x y : α} (h : DownOrder lt q i)
    (hx : q[i]? = some x) (hy : q[child lt q i]? = some y) (hxy : lt x y = true) :
    DownOrder lt (q.swap i (child lt q i)) (child lt q i) := by
  obtain ⟨hc0, hci, -, hmax⟩ := child_spec hlt q i
  generalize child lt q i = c at *
  refine ⟨fun j hj hne => ?_, fun _ d hd hparent => ?_⟩
  · rw [ordered_swap_iff lt hx hy]
    intro u hu v hv
    by_cases hch : (j - 1) / 2 = i
    · rw [if_pos hch] at hu
      cases hu
      rw [if_neg (by omega)] at hv
      by_cases hjc : j = c
      · rw [if_pos hjc] at hv
        cases hv
        exact hlt.asymm hxy
      · rw [if_neg hjc] at hv
        exact hmax j hj hch y hy v hv
    · rw [if_neg hch, if_neg hne] at hu
      by_cases hji : j = i
      · -- the larger child, below the parent
        subst hji
        rw [if_pos rfl] at hv
        cases hv
        exact h.grand hj c hc0 hci u hu y hy
      · rw [if_neg hji, if_neg (by omega)] at hv
        exact h.except j hj hch u hu v hv
  · rw [ordered_swap_iff lt hx hy, hci]
    intro u hu v hv
    rw [if_pos rfl] at hu
    cases hu
    rw [if_neg (by omega), if_neg (by omega)] at hv
    exact h.except d hd (by omega) y (hparent ▸ hy) v hv

theorem DownOrder.finish {q : List α} {i : Nat} (h : DownOrder lt q i)
    (hi : ∀ c, 0 < c → (c - 1) / 2 = i → Ordered lt q i c) : IsHeap lt q := by
  rw [isHeap_iff]
  intro j hj
  by_cases hch : (j - 1) / 2 = i
  · rw [hch]
    exact hi j hj hch
  · exact h.except j hj hch

theorem siftDown_isHeap (hlt : StrictWeak lt) {n : Nat} {q : List α} {i : Nat} (h : DownOrder lt q i)
    (hn : q.length ≤ n + i) : IsHeap lt (siftDown lt n q i) := by
  induction n generalizing q i with
  | zero =>
    refine h.finish fun c hc hparent u hu v hv => ?_
    have := (List.getElem?_eq_some_iff.mp hu).1
    omega
  | succ n ih =>
    obtain ⟨hc0, hci, hnone, hmax⟩ := child_spec hlt q i
    unfold siftDown
    split
    · next x y hx hy =>
      split
      · next hxy =>
        refine ih (h.move hlt hx hy hxy) ?_
        rw [List.length_swap]
        omega
      · next hxy =>
        refine h.finish fun c hc hparent u hu v hv => ?_
        rw [hx] at hu
        cases hu
        exact hlt.neg_trans (eq_false_of_ne_true hxy) (hmax c hc hparent y hy v hv)
    · next hstop =>
      refine h.finish fun c hc hparent u hu v hv => ?_
      cases hy : q[child lt q i]? with
      | none =>
        rw [hnone hy c hc hparent] at hv
        cases hv
      | some y => exact absurd hy (hstop u y hu)

theorem popHeap_isHeap (hlt : StrictWeak lt) {q q' : List α} {x : α} (h : IsHeap lt q)
    (hpop : popHeap lt q = some (x, q')) : IsHeap lt q' := by
  cases q with
  | nil => cases hpop
  | cons a rest =>
    simp only [popHeap] at hpop
    split at hpop
    · cases hpop
      exact fun i hi => absurd hi (by simp)
    · next y hl =>
      cases hpop
      obtain ⟨mid, rfl⟩ := List.getLast?_eq_some_iff.mp hl
      rw [List.dropLast_concat]
      rw [isHeap_iff] at h
      refine siftDown_isHeap hlt ⟨fun j hj hparent u hu v hv => ?_, fun hpos => absurd hpos (by decide)⟩ (by simp)
      -- behind the root the entries are the old ones
      have hold : ∀ k, 0 < k → ∀ z ∈ (y :: mid)[k]?, (x :: (mid ++ [y]))[k]? = some z := by
        intro k hk z hz
        obtain ⟨k, rfl⟩ : ∃ m, k = m + 1 := ⟨k - 1, by omega⟩
        rw [List.getElem?_cons_succ] at hz ⊢
        rw [List.getElem?_append_left (List.getElem?_eq_some_iff.mp hz).1]
        exact hz
      exact h j hj u (hold _ (by omega) u hu) v (hold j hj v hv)

/-- `std::push_heap` and `std::pop_heap` on the whole range, as the C++ standard specifies them. -/
structure StdHeap (lt : α → α → Bool) where
  pushHeap : List α → List α
  popHeap : List α → List α
  push_perm : ∀ {q} x, IsHeap lt q → (pushHeap (q ++ [x])).Perm (q ++ [x])
  push_isHeap : ∀ {q} x, IsHeap lt q → IsHeap lt (pushHeap (q ++ [x]))
  pop_spec : ∀ {t q}, IsHeap lt (t :: q) → ∃ rest, popHeap (t :: q) = rest ++ [t] ∧ rest.Perm q ∧ IsHeap lt rest

/-- The sifts above. -/
def StdHeap.sift (hlt : StrictWeak lt) : StdHeap lt where
  pushHeap := Heap.pushHeap lt
  popHeap q := match Heap.popHeap lt q with
    | some (t, rest) => rest ++ [t]
    | none => q
  push_perm _ _ := pushHeap_perm lt _
  push_isHeap x h := pushHeap_isHeap hlt h x
  pop_spec := by
    intro t q h
    obtain ⟨rest, hpop, hperm⟩ := popHeap_cons lt t q
    refine ⟨rest, ?_, hperm, popHeap_isHeap hlt h hpop⟩
    simp only [hpop]

theorem StdHeap.sift_popHeap (hlt : StrictWeak lt) {q rest : List α} {t : α} (h : Heap.popHeap lt q = some (t, rest)) :
    (StdHeap.sift hlt).popHeap q = rest ++ [t] := by
  simp only [StdHeap.sift, h]

end Inca.Heap
