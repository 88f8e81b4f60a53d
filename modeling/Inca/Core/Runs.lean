import Mathlib.Data.List.SplitBy

/-!
# Runs of consecutive numbers

A list of increasing numbers is cut where a number is not the successor of the one before it.
`hull` is the pair of the first and the last element; a list without gaps has exactly the numbers
from the one to the other.

* `runs_concat`: the runs of a list that gets longer.
* `Contiguous.mem_iff`, `contiguous_iff`: lists without gaps are the intervals.
* `contiguous_filter_iff`: what is left of a list without gaps has none if all numbers between its
  ends are left.
-/
namespace Inca.Runs

/-- Where `b` goes on with the run of `a`. -/
def follows (a b : Nat) : Bool := b == a + 1

def runs (l : List Nat) : List (List Nat) := l.splitBy follows

def Contiguous (l : List Nat) : Prop := l.IsChain fun a b => follows a b

instance (l : List Nat) : Decidable (Contiguous l) := inferInstanceAs (Decidable (l.IsChain fun a b => follows a b = true))

/-- The first and the last element. -/
def hull (l : List Nat) : Nat × Nat := (l.headD 0, l.getLastD 0)

/-- `c` is between the ends of `l`. -/
def InHull (l : List Nat) (c : Nat) : Prop := (hull l).1 ≤ c ∧ c ≤ (hull l).2

theorem follows_iff {a b : Nat} : follows a b ↔ b = a + 1 := beq_iff_eq

/-! ## Runs -/

theorem flatten_runs (l : List Nat) : (runs l).flatten = l := List.flatten_splitBy follows l

theorem runs_ne_nil {l : List Nat} (h : l ≠ []) : runs l ≠ [] := List.splitBy_ne_nil.mpr h

theorem contiguous_of_mem_runs {l r : List Nat} (h : r ∈ runs l) : r ≠ [] ∧ Contiguous r :=
  ⟨List.ne_nil_of_mem_splitBy h, List.isChain_of_mem_splitBy h⟩

/-- One more number goes on with the last run or begins a new one. -/
theorem runs_concat {l : List Nat} {rs : List (List Nat)} {r : List Nat} {y : Nat} (h : runs l = rs ++ [r])
    (hy : l.getLast? = some y) (x : Nat) :
    runs (l ++ [x]) = if follows y x then rs ++ [r ++ [x]] else rs ++ [r] ++ [[x]] := by
  have hr : r ≠ [] := (contiguous_of_mem_runs (h ▸ List.mem_append_right rs List.mem_cons_self)).1
  split
  · next hfollows =>
    obtain ⟨hflat, hne, hchain, hbreaks⟩ := List.splitBy_eq_iff.mp h
    -- the last element of the last run
    have hlast : r.getLast? = some y := by
      rw [hflat, List.flatten_append, List.flatten_singleton, List.getLast?_append_of_ne_nil _ hr] at hy
      exact hy
    refine List.splitBy_eq_iff.mpr ⟨?_, ?_, ?_, ?_⟩
    · rw [hflat]
      simp
    · intro hmem
      rcases List.mem_append.mp hmem with hmem | hmem
      · exact hne (List.mem_append_left _ hmem)
      · rw [List.mem_singleton] at hmem
        exact List.append_ne_nil_of_right_ne_nil r (List.cons_ne_nil x []) hmem.symm
    · intro m hm
      rcases List.mem_append.mp hm with hm | hm
      · exact hchain m (List.mem_append_left _ hm)
      · rw [List.mem_singleton.mp hm, List.isChain_append]
        refine ⟨hchain r (List.mem_append_right _ List.mem_cons_self), List.isChain_singleton x, ?_⟩
        intro a ha b hb
        rw [hlast] at ha
        cases ha
        cases hb
        exact hfollows
    · rw [List.isChain_append] at hbreaks ⊢
      refine ⟨hbreaks.1, List.isChain_singleton _, fun a ha b hb => ?_⟩
      cases hb
      obtain ⟨ha', hr', hbreak⟩ := hbreaks.2.2 a ha r rfl
      refine ⟨ha', List.append_ne_nil_of_right_ne_nil r (List.cons_ne_nil x []), ?_⟩
      rw [List.head_append_of_ne_nil hr']
      exact hbreak
  · next hfollows =>
    have happend : runs (l ++ [x]) = runs l ++ runs [x] := by
      refine List.splitBy_append fun a ha b hb => ?_
      rw [hy] at ha
      cases ha
      cases hb
      exact Bool.eq_false_iff.mpr hfollows
    rw [happend, h]
    rfl

/-! ## Lists without gaps -/

theorem Contiguous.pairwise_lt {l : List Nat} (h : Contiguous l) : l.Pairwise (· < ·) := by
  have hlt : l.IsChain (· < ·) := h.imp fun a b hab => by
    rw [follows_iff] at hab
    omega
  exact hlt.pairwise

theorem inHull_of_mem {l : List Nat} (h : l.Pairwise (· < ·)) {c : Nat} (hc : c ∈ l) : InHull l c := by
  induction l generalizing c with
  | nil => cases hc
  | cons a l ih =>
    rw [List.pairwise_cons] at h
    cases l with
    | nil =>
      rw [List.mem_singleton] at hc
      exact ⟨hc.ge, hc.le⟩
    | cons b l =>
      have hb := ih h.2 List.mem_cons_self
      have hab := h.1 b List.mem_cons_self
      have hlast : (hull (a :: b :: l)).2 = (hull (b :: l)).2 := rfl
      rcases List.mem_cons.mp hc with rfl | hc
      · exact ⟨le_refl c, by rw [hlast]; exact hab.le.trans hb.2⟩
      · exact ⟨(h.1 c hc).le, by rw [hlast]; exact (ih h.2 hc).2⟩

theorem Contiguous.mem_iff {l : List Nat} (h : Contiguous l) (hne : l ≠ []) {c : Nat} : c ∈ l ↔ InHull l c := by
  refine ⟨inHull_of_mem h.pairwise_lt, ?_⟩
  induction l with
  | nil => exact absurd rfl hne
  | cons a l ih =>
    cases l with
    | nil => exact fun hc => List.mem_singleton.mpr (le_antisymm hc.2 hc.1)
    | cons b l =>
      intro hc
      have hab : follows a b ∧ Contiguous (b :: l) := List.isChain_cons_cons.mp h
      have hb := follows_iff.mp hab.1
      rcases Nat.eq_or_lt_of_le hc.1 with heq | hlt
      · exact List.mem_cons.mpr (.inl heq.symm)
      · have hlow : b ≤ c := by
          rw [hb]
          exact hlt
        exact List.mem_cons_of_mem _ (ih hab.2 (List.cons_ne_nil b l) ⟨hlow, hc.2⟩)

theorem contiguous_iff {l : List Nat} (h : l.Pairwise (· < ·)) (hne : l ≠ []) :
    Contiguous l ↔ ∀ c, InHull l c → c ∈ l := by
  refine ⟨fun hc c => (hc.mem_iff hne).mpr, fun hall => ?_⟩
  induction l with
  | nil => exact List.isChain_nil
  | cons a l ih =>
    cases l with
    | nil => exact List.isChain_singleton a
    | cons b l =>
      rw [List.pairwise_cons] at h
      have hab := h.1 b List.mem_cons_self
      have hb := inHull_of_mem h.2 (List.mem_cons_self (a := b))
      refine List.isChain_cons_cons.mpr ⟨?_, ih h.2 (List.cons_ne_nil b l) fun c hc => ?_⟩
      · -- the successor of `a` is in the list, and only `b` can be it
        have hmem : a + 1 ∈ a :: b :: l := hall (a + 1) ⟨Nat.le_succ a, (Nat.succ_le_of_lt hab).trans hb.2⟩
        rcases List.mem_cons.mp hmem with heq | hmem
        · omega
        · have hle := (inHull_of_mem h.2 hmem).1
          have hhead : (hull (b :: l)).1 = b := rfl
          exact follows_iff.mpr (by omega)
      · have hhead : (hull (b :: l)).1 = b := rfl
        have hlow := hc.1
        have hmem : c ∈ a :: b :: l := hall c ⟨show a ≤ c by omega, hc.2⟩
        rcases List.mem_cons.mp hmem with heq | hmem
        · omega
        · exact hmem

/-- The hull of a part is within the list. -/
theorem mem_of_inHull_filter {l : List Nat} (h : Contiguous l) {p : Nat → Bool} (hne : l.filter p ≠ []) {c : Nat}
    (hc : InHull (l.filter p) c) : c ∈ l := by
  have hl : l ≠ [] := fun hnil => hne (by rw [hnil]; rfl)
  have hmem : ∀ d ∈ l.filter p, InHull l d := fun d hd => inHull_of_mem h.pairwise_lt (List.mem_of_mem_filter hd)
  have hfirst : (hull (l.filter p)).1 ∈ l.filter p := by
    rw [hull, List.headD_eq_head?_getD, List.head?_eq_some_head hne]
    exact List.head_mem hne
  have hlast : (hull (l.filter p)).2 ∈ l.filter p := by
    rw [hull, List.getLastD_eq_getLast?, List.getLast?_eq_some_getLast hne]
    exact List.getLast_mem hne
  exact (h.mem_iff hl).mpr ⟨(hmem _ hfirst).1.trans hc.1, hc.2.trans (hmem _ hlast).2⟩

theorem contiguous_filter_iff {l : List Nat} (h : Contiguous l) {p : Nat → Bool} (hne : l.filter p ≠ []) :
    Contiguous (l.filter p) ↔ ∀ c, InHull (l.filter p) c → p c := by
  rw [contiguous_iff (h.pairwise_lt.sublist List.filter_sublist) hne]
  constructor
  · exact fun hall c hc => (List.mem_filter.mp (hall c hc)).2
  · exact fun hall c hc => List.mem_filter.mpr ⟨mem_of_inHull_filter h hne hc, hall c hc⟩

theorem Contiguous.map_add {l : List Nat} (h : Contiguous l) (n : Nat) : Contiguous (l.map (· + n)) := by
  refine List.isChain_map_of_isChain (· + n) (fun a b hab => ?_) h
  rw [follows_iff] at hab ⊢
  omega

end Inca.Runs
