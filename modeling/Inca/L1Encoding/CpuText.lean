import Inca.Core.Runs
import Mathlib.Data.List.Basic

/-!
# CPU sets as an argument of `numactl` (`launcher/launch.py`)

`worker` puts `numactl --physcpubind` in front of a command, with the first and the last CPU of
every set of the allocation. Texts are lists of characters. What such a text stands for
(`Denotes`) is what `numactl` makes of it: numbers and ranges of numbers, between commas.

* `numa_eq`: sets that are not empty are written, and read back as their hulls.
* `numa_nil`: an empty set raises an exception.
-/
namespace Inca.L1.CpuText
open Inca.Runs

abbrev Str := List Char

/-- What the launcher raises. -/
inductive PyError
  | zeroDivisionError
  | valueError
  | indexError
  deriving DecidableEq

/-! ## Writing -/

/-- `str(n)` -/
def decimal (n : Nat) : Str := Nat.toDigits 10 n

/-- mirrors byteps/launcher/launch.py:174-177 -/
def format (cpuSet : List Nat) : Except PyError Str :=
  if cpuSet.length = 1 then .ok (decimal (cpuSet.headD 0) ++ [','])
  else
    match cpuSet.head?, cpuSet.getLast? with
    | some first, some last => .ok (decimal first ++ '-' :: decimal last ++ [','])
    | _, _ => .error .indexError

/-- `s.strip(x)`, of one character. -/
def strip (x : Char) (s : Str) : Str := ((s.dropWhile (· == x)).reverse.dropWhile (· == x)).reverse

/-- mirrors byteps/launcher/launch.py:172-178 -/
def numa (allocation : List (List Nat)) : Except PyError Str := do
  let numa ← allocation.foldlM (fun numa cpuSet => do return numa ++ (← format cpuSet))
    "numactl --physcpubind ".toList
  return strip ',' numa ++ [' ']

/-! ## Reading -/

def readNat (s : Str) : Option Nat :=
  if s ≠ [] ∧ s.all Char.isDigit then some (Nat.ofDigitChars 10 s 0) else none

/-- `N` or `N-N` -/
def readRange (s : Str) : Option (Nat × Nat) :=
  match s.splitOn '-' with
  | [n] => (readNat n).map fun n => (n, n)
  | [n, m] => do return (← readNat n, ← readNat m)
  | _ => none

/-- The words of a command; the third is the argument of the option. -/
def readCpus (text : Str) : Option (List (Nat × Nat)) :=
  match text.splitOn ' ' with
  | command :: option :: cpus :: _ =>
    if command = "numactl".toList ∧ option = "--physcpubind".toList then (cpus.splitOn ',').mapM readRange else none
  | _ => none

def Denotes (text : Str) (c : Nat) : Prop := ∃ ranges, readCpus text = some ranges ∧ ∃ r ∈ ranges, r.1 ≤ c ∧ c ≤ r.2

/-! ## Numbers -/

theorem isDigit_of_mem_decimal {n : Nat} {c : Char} (h : c ∈ decimal n) : c.isDigit = true :=
  Nat.isDigit_of_mem_toDigits (by omega) (by omega) h

theorem decimal_ne_nil (n : Nat) : decimal n ≠ [] := Nat.toDigits_ne_nil

theorem notMem_decimal {x : Char} (hx : x.isDigit = false) (n : Nat) : x ∉ decimal n := by
  intro h
  rw [isDigit_of_mem_decimal h] at hx
  cases hx

theorem readNat_decimal (n : Nat) : readNat (decimal n) = some n := by
  have hall : (decimal n).all Char.isDigit = true := List.all_eq_true.mpr fun c hc => isDigit_of_mem_decimal hc
  rw [readNat, if_pos ⟨decimal_ne_nil n, hall⟩]
  exact congrArg some Nat.ofDigitChars_ten_toDigits

/-! ## Sets -/

/-- What is written for a set, without the comma. -/
def piece (cpuSet : List Nat) : Str :=
  if cpuSet.length = 1 then decimal (hull cpuSet).1 else decimal (hull cpuSet).1 ++ '-' :: decimal (hull cpuSet).2

theorem format_eq {cpuSet : List Nat} (h : cpuSet ≠ []) : format cpuSet = .ok (piece cpuSet ++ [',']) := by
  unfold format piece
  split
  · rfl
  · rw [List.head?_eq_some_head h, List.getLast?_eq_some_getLast h, hull, List.headD_eq_head?_getD,
      List.head?_eq_some_head h, List.getLastD_eq_getLast?, List.getLast?_eq_some_getLast h]
    rfl

theorem notMem_piece {x : Char} (hdigit : x.isDigit = false) (hdash : x ≠ '-') (cpuSet : List Nat) :
    x ∉ piece cpuSet := by
  unfold piece
  split
  · exact notMem_decimal hdigit _
  · rw [List.mem_append, List.mem_cons]
    intro h
    rcases h with h | h | h
    · exact notMem_decimal hdigit _ h
    · exact hdash h
    · exact notMem_decimal hdigit _ h

theorem readRange_piece {cpuSet : List Nat} (h : cpuSet ≠ []) : readRange (piece cpuSet) = some (hull cpuSet) := by
  have hdash : ∀ n, '-' ∉ decimal n := notMem_decimal rfl
  unfold piece
  split
  · next hlen =>
    obtain ⟨c, rfl⟩ := List.length_eq_one_iff.mp hlen
    have hsplit := List.splitOn_intercalate '-' (show ∀ l ∈ [decimal c], '-' ∉ l by simpa using hdash c)
      (List.cons_ne_nil _ _)
    rw [List.intercalate_singleton] at hsplit
    show readRange (decimal c) = some (c, c)
    rw [readRange, hsplit]
    simp only [readNat_decimal, Option.map_some]
  · obtain ⟨first, last⟩ := hull cpuSet
    have hsplit := List.splitOn_intercalate '-' (show ∀ l ∈ [decimal first, decimal last], '-' ∉ l by simp [hdash])
      (List.cons_ne_nil _ _)
    rw [List.intercalate_cons_cons, List.intercalate_singleton, List.append_assoc, List.singleton_append] at hsplit
    rw [readRange, hsplit]
    simp only [readNat_decimal]
    rfl

/-! ## The text -/

/-- The argument of the option. -/
def argument (allocation : List (List Nat)) : Str := [','].intercalate (allocation.map piece)

theorem argument_cons {cpuSet : List Nat} {allocation : List (List Nat)} (h : allocation ≠ []) :
    argument (cpuSet :: allocation) = piece cpuSet ++ ',' :: argument allocation := by
  have hne : allocation.map piece ≠ [] := fun hnil => h (List.map_eq_nil_iff.mp hnil)
  rw [argument, List.map_cons, List.intercalate_cons_of_ne_nil hne, List.append_assoc]
  rfl

/-- The last character is no comma that `strip` would take away. -/
def EndsInDigit (s : Str) : Prop := ∃ t c, s = t ++ [c] ∧ c.isDigit = true

theorem EndsInDigit.append {s : Str} (h : EndsInDigit s) (t : Str) : EndsInDigit (t ++ s) := by
  obtain ⟨u, c, rfl, hc⟩ := h
  exact ⟨t ++ u, c, (List.append_assoc t u [c]).symm, hc⟩

theorem endsInDigit_decimal (n : Nat) : EndsInDigit (decimal n) := by
  have hne := decimal_ne_nil n
  exact ⟨(decimal n).dropLast, (decimal n).getLast hne, (List.dropLast_concat_getLast hne).symm,
    isDigit_of_mem_decimal (List.getLast_mem hne)⟩

theorem endsInDigit_piece (cpuSet : List Nat) : EndsInDigit (piece cpuSet) := by
  unfold piece
  split
  · exact endsInDigit_decimal _
  · exact ((endsInDigit_decimal _).append ['-']).append _

theorem argument_spec {allocation : List (List Nat)} (h : allocation ≠ []) :
    EndsInDigit (argument allocation) ∧ ' ' ∉ argument allocation ∧
      (allocation.map fun cpuSet => piece cpuSet ++ [',']).flatten = argument allocation ++ [','] := by
  induction allocation with
  | nil => exact absurd rfl h
  | cons cpuSet allocation ih =>
    have hpiece : ' ' ∉ piece cpuSet := notMem_piece rfl (by decide) cpuSet
    by_cases hnil : allocation = []
    · subst hnil
      have hone : argument [cpuSet] = piece cpuSet := List.intercalate_singleton
      rw [hone]
      exact ⟨endsInDigit_piece cpuSet, hpiece, List.append_nil _⟩
    · obtain ⟨hends, hblank, hflat⟩ := ih hnil
      rw [argument_cons hnil]
      refine ⟨(hends.append [',']).append (piece cpuSet), ?_, ?_⟩
      · rw [List.mem_append, List.mem_cons]
        intro hmem
        rcases hmem with hmem | hmem | hmem
        · exact hpiece hmem
        · exact absurd hmem (by decide)
        · exact hblank hmem
      · rw [List.map_cons, List.flatten_cons, hflat]
        simp

theorem foldlM_format {allocation : List (List Nat)} (h : ∀ cpuSet ∈ allocation, cpuSet ≠ []) (numa : Str) :
    allocation.foldlM (fun numa cpuSet => do return numa ++ (← format cpuSet)) numa =
      .ok (numa ++ (allocation.map fun cpuSet => piece cpuSet ++ [',']).flatten) := by
  induction allocation generalizing numa with
  | nil =>
    rw [List.map_nil, List.flatten_nil, List.append_nil]
    rfl
  | cons cpuSet allocation ih =>
    rw [List.forall_mem_cons] at h
    rw [List.foldlM_cons, format_eq h.1]
    have hrest := ih h.2 (numa ++ (piece cpuSet ++ [',']))
    rw [List.append_assoc] at hrest
    exact hrest

theorem strip_concat {x c : Char} {s : Str} (hc : c ≠ x) (h : EndsInDigit (c :: s)) (hx : x.isDigit = false) :
    strip x (c :: s ++ [x]) = c :: s := by
  obtain ⟨t, d, hs, hd⟩ := h
  have hfront : (c :: (s ++ [x])).dropWhile (· == x) = c :: s ++ [x] :=
    List.dropWhile_cons_of_neg fun heq => hc (beq_iff_eq.mp heq)
  have hback : (x :: d :: t.reverse).dropWhile (· == x) = d :: t.reverse := by
    have hd' : ¬ (d == x) = true := by
      intro heq
      rw [beq_iff_eq.mp heq, hx] at hd
      cases hd
    calc (x :: d :: t.reverse).dropWhile (· == x)
        = (d :: t.reverse).dropWhile (· == x) := List.dropWhile_cons_of_pos (beq_self_eq_true x)
      _ = d :: t.reverse := List.dropWhile_cons_of_neg hd'
  have hrev : (c :: s ++ [x]).reverse = x :: d :: t.reverse := by
    rw [hs]
    simp
  rw [strip, List.cons_append, hfront, hrev, hback, hs, List.reverse_cons, List.reverse_reverse]

theorem numa_ok {allocation : List (List Nat)} (hne : allocation ≠ []) (h : ∀ cpuSet ∈ allocation, cpuSet ≠ []) :
    numa allocation = .ok ("numactl --physcpubind ".toList ++ argument allocation ++ [' ']) := by
  obtain ⟨hends, -, hflat⟩ := argument_spec hne
  have hstrip : strip ',' ("numactl --physcpubind ".toList ++ (argument allocation ++ [','])) =
      "numactl --physcpubind ".toList ++ argument allocation := by
    rw [← List.append_assoc]
    exact strip_concat (by decide) (hends.append "numactl --physcpubind ".toList) rfl
  rw [numa, foldlM_format h, hflat]
  show Except.ok (strip ',' _ ++ [' ']) = _
  rw [hstrip]

theorem mapM_readRange {allocation : List (List Nat)} (h : ∀ cpuSet ∈ allocation, cpuSet ≠ []) :
    (allocation.map piece).mapM readRange = some (allocation.map hull) := by
  induction allocation with
  | nil => rfl
  | cons cpuSet allocation ih =>
    rw [List.forall_mem_cons] at h
    rw [List.map_cons, List.mapM_cons, readRange_piece h.1, ih h.2]
    rfl

/-- **Written and read.** -/
theorem numa_eq {allocation : List (List Nat)} (hne : allocation ≠ []) (h : ∀ cpuSet ∈ allocation, cpuSet ≠ []) :
    ∃ text, numa allocation = .ok text ∧ readCpus text = some (allocation.map hull) := by
  refine ⟨_, numa_ok hne h, ?_⟩
  obtain ⟨-, hblank, -⟩ := argument_spec hne
  have hwords := List.splitOn_intercalate ' '
    (show ∀ l ∈ ["numactl".toList, "--physcpubind".toList, argument allocation, []], ' ' ∉ l by
      intro l hl
      simp only [List.mem_cons, List.not_mem_nil, or_false] at hl
      rcases hl with rfl | rfl | rfl | rfl
      · decide
      · decide
      · exact hblank
      · decide)
    (List.cons_ne_nil _ _)
  have htext : [' '].intercalate ["numactl".toList, "--physcpubind".toList, argument allocation, []] =
      "numactl --physcpubind ".toList ++ argument allocation ++ [' '] := by
    rw [List.intercalate_cons_cons, List.intercalate_cons_cons, List.intercalate_cons_cons, List.intercalate_singleton,
      List.append_nil]
    rfl
  have hcpus : (argument allocation).splitOn ',' = allocation.map piece := by
    refine List.splitOn_intercalate ',' (fun l hl => ?_) fun hnil => hne (List.map_eq_nil_iff.mp hnil)
    obtain ⟨cpuSet, -, rfl⟩ := List.mem_map.mp hl
    exact notMem_piece rfl (by decide) cpuSet
  rw [htext] at hwords
  rw [readCpus, hwords]
  show (if _ ∧ _ then _ else _) = _
  rw [if_pos ⟨rfl, rfl⟩, hcpus, mapM_readRange h]

/-- An empty set has no first CPU. -/
theorem numa_nil {allocation : List (List Nat)} (h : [] ∈ allocation) : numa allocation = .error .indexError := by
  suffices hfold : ∀ text : Str, allocation.foldlM (fun numa cpuSet => do return numa ++ (← format cpuSet)) text =
      .error .indexError by
    rw [numa, hfold]
    rfl
  induction allocation with
  | nil => cases h
  | cons cpuSet allocation ih =>
    intro text
    rw [List.foldlM_cons]
    by_cases hset : cpuSet = []
    · subst hset
      rfl
    · rw [format_eq hset]
      exact ih ((List.mem_cons.mp h).resolve_left (Ne.symm hset)) _

theorem denotes_iff {allocation : List (List Nat)} {text : Str} (h : readCpus text = some (allocation.map hull)) {c : Nat} :
    Denotes text c ↔ ∃ cpuSet ∈ allocation, InHull cpuSet c := by
  constructor
  · intro hdenotes
    obtain ⟨ranges, hranges, r, hr, hc⟩ := hdenotes
    rw [h] at hranges
    cases hranges
    obtain ⟨cpuSet, hmem, rfl⟩ := List.mem_map.mp hr
    exact ⟨cpuSet, hmem, hc⟩
  · intro hmem
    obtain ⟨cpuSet, hmem, hc⟩ := hmem
    exact ⟨_, h, hull cpuSet, List.mem_map_of_mem hmem, hc⟩

end Inca.L1.CpuText
