import Inca.Core.FirstFit
import Inca.L1Encoding.CpuText
import Mathlib.Data.Nat.Notation

/-!
# CPUs for the local ranks (`launcher/launch.py`)

`allocate_cpu` gives every local rank some of the physical cores of one NUMA node: `_get_quota` says how
many, and `_get_allocation` takes them from the front of the first node that has as many, or tries
with one less. What a rank gets is cut where the numbers have a gap; CPUs of the blacklist are left out of
the last run, and with hyper-threading the CPUs whose numbers are greater by the number of cores are
added, again for the last run.

The ends of the runs are then written for `numactl` (`CpuText`).

* `allocateCpu_eq`: without quotas in the environment, the allocations are those of the first-fit
  shares (`allocationOf`).
* `length_shareList`: all ranks have a share if and only if the first node is large enough for the root.
* `text_iff`, `apart_iff`: when the text of a rank stands for its allocation, and when those of two
  ranks have nothing in common.
* `allocateCpu_iff`: when all is well.
-/
namespace Inca.L4.CpuAllocation
open Inca.Runs Inca.FirstFit Inca.L1.CpuText

/-! ## The code -/

/-- What the launcher reads from the environment; a `numaRootQuota` of 0 counts as none. -/
structure Env where
  multithreadedCpu : Bool := true
  numaDefaultQuota : Option Int := none
  numaRootQuota : Int := 0
  cpuBlacklist : List Int := [-1]

/-- The CPU sets of a rank. -/
abbrev Allocation := List (List Nat)

variable (env : Env)

/-- `cpus` are the sorted numbers that the directories of the nodes list.
mirrors byteps/launcher/launch.py:45-66 -/
def getNumaInfo (cpus : List (List Nat)) : List (List Nat) :=
  cpus.map fun cpuIds => if env.multithreadedCpu then cpuIds.take (cpuIds.length / 2) else cpuIds

/-- `item not in cpu_blacklist` -/
def allowed (c : Nat) : Bool := (c : Int) ∉ env.cpuBlacklist

/-- `l[start:stop]` -/
def slice (l : List Nat) (start stop : Nat) : List Nat := (l.drop start).take (stop - start)

/-- mirrors byteps/launcher/launch.py:75-78 -/
def splitIndex (node : List Nat) (quota : Nat) : List Nat :=
  (List.range' 1 (quota - 1)).filter fun i => node.getD i 0 ≠ node.getD (i - 1) 0 + 1

/-- The variables of the loop over `split_index`. -/
structure Cut where
  ret : Allocation
  quota : Nat
  lastIdx : Nat

/-- mirrors byteps/launcher/launch.py:81-84 -/
def cut (node : List Nat) (s : Cut) (idx : Nat) : Cut :=
  ⟨s.ret ++ [slice node s.lastIdx idx], s.quota - (idx - s.lastIdx), idx⟩

/-- What a node that is large enough gives, and what is left of it.
mirrors byteps/launcher/launch.py:75-94 -/
def allocateNode (cpuNum quota : Nat) (node : List Nat) : Allocation × List Nat :=
  let s := (splitIndex node quota).foldl (cut node) ⟨[], quota, 0⟩
  let currAlloc := slice node s.lastIdx (s.lastIdx + s.quota)
  let currAlloc := currAlloc.filter (allowed env)
  let ret := s.ret ++ [currAlloc]
  let ret := if env.multithreadedCpu then ret ++ [(currAlloc.map (· + cpuNum)).filter (allowed env)] else ret
  (ret, (List.range quota).reverse.foldl List.eraseIdx node)

/-- The loop over the nodes; an empty allocation if none is large enough. -/
def allocateNodes (cpuNum quota : Nat) : List (List Nat) → Allocation × List (List Nat)
  | [] => ([], [])
  | node :: nodes =>
    if node.length < quota then
      let r := allocateNodes cpuNum quota nodes
      (r.1, node :: r.2)
    else
      let r := allocateNode env cpuNum quota node
      (r.1, r.2 :: nodes)

/-- mirrors byteps/launcher/launch.py:68-95 -/
def getAllocation (nodes : List (List Nat)) (quota cpuNum : Nat) : Except PyError (Allocation × List (List Nat)) :=
  if quota < 1 then .error .valueError else .ok (allocateNodes env cpuNum quota nodes)

/-- `while quota >= 1 and too_large(quota): quota -= 1`, with as many rounds as `quota` allows. -/
def shrink (tooLarge : Int → Bool) : Nat → Int → Int
  | 0, quota => quota
  | n + 1, quota => if quota ≥ 1 && tooLarge quota then shrink tooLarge n (quota - 1) else quota

/-- mirrors byteps/launcher/launch.py:111-113 -/
def nodeSize (nodes : List (List Nat)) : Nat :=
  let size := (nodes.headD []).length
  if env.multithreadedCpu then size / 2 else size

/-- mirrors byteps/launcher/launch.py:97-116 -/
def getQuota (nodes : List (List Nat)) (cpuNum localSize : Nat) : Except PyError (List Int) :=
  if localSize = 0 then .error .zeroDivisionError
  else
    let defaultQuota : Int := env.numaDefaultQuota.getD (cpuNum / localSize : Nat)
    let defaultQuota := shrink (fun q => q * localSize > cpuNum) defaultQuota.toNat defaultQuota
    let rootQuota := (cpuNum : Int) - defaultQuota * ((localSize : Int) - 1)
    let rootQuota := if env.numaRootQuota ≠ 0 then env.numaRootQuota else rootQuota
    let rootQuota := shrink (fun q => q > nodeSize env nodes) rootQuota.toNat rootQuota
    .ok (List.replicate (localSize - 1) defaultQuota ++ [rootQuota])

/-- `while quota > 0`.
mirrors byteps/launcher/launch.py:126-133 -/
def allocateQuota (cpuNum : Nat) : Nat → List Allocation × List (List Nat) →
    Except PyError (List Allocation × List (List Nat))
  | 0, s => .ok s
  | quota + 1, s => do
    let (allocation, nodes) ← getAllocation env s.2 (quota + 1) cpuNum
    if allocation ≠ [] then return (s.1 ++ [allocation], nodes) else allocateQuota cpuNum quota (s.1, nodes)

/-- `none` if there are no nodes.
mirrors byteps/launcher/launch.py:43-135 -/
def allocateCpu (cpus : List (List Nat)) (localSize : Nat) : Except PyError (Option (List Allocation)) :=
  let nodes := getNumaInfo env cpus
  if nodes = [] then .ok none
  else do
    let cpuNum := nodes.foldl (fun x y => x + y.length) 0
    let quotaList ← getQuota env nodes cpuNum localSize
    let r ← quotaList.foldlM (fun s quota => allocateQuota env cpuNum quota.toNat s) ([], nodes)
    return some r.1

/-! ## Shares -/

/-- The last run of a share is treated differently from the others. -/
def lastRun (share : List Nat) : List Nat := (runs share).getLastD []

def earlier (share : List Nat) : List (List Nat) := (runs share).dropLast

/-- What is used of the last run. -/
def usable (share : List Nat) : List Nat := (lastRun share).filter (allowed env)

/-- The CPUs that are added with hyper-threading. -/
def siblings (cpuNum : Nat) (share : List Nat) : List Nat := ((usable env share).map (· + cpuNum)).filter (allowed env)

/-- The CPU sets that are made of a share. -/
def allocationOf (cpuNum : Nat) (share : List Nat) : Allocation :=
  earlier share ++ [usable env share] ++ if env.multithreadedCpu then [siblings env cpuNum share] else []

theorem runs_eq {share : List Nat} (h : share ≠ []) : runs share = earlier share ++ [lastRun share] := by
  have hne := runs_ne_nil h
  rw [earlier, lastRun, List.getLastD_eq_getLast?, List.getLast?_eq_some_getLast hne]
  exact (List.dropLast_concat_getLast hne).symm

theorem slice_succ {l : List Nat} {start stop : Nat} (hle : start ≤ stop) (hlt : stop < l.length) :
    slice l start (stop + 1) = slice l start stop ++ [l.getD stop 0] := by
  have hsucc : stop + 1 - start = stop - start + 1 := by omega
  rw [slice, slice, hsucc, List.take_add_one, List.getElem?_drop, Nat.add_sub_cancel' hle, List.getD_eq_getElem?_getD,
    List.getElem?_eq_getElem hlt]
  rfl

theorem splitIndex_succ (node : List Nat) {q : Nat} (hq : 1 ≤ q) : splitIndex node (q + 1) =
    splitIndex node q ++ if node.getD q 0 ≠ node.getD (q - 1) 0 + 1 then [q] else [] := by
  obtain ⟨m, rfl⟩ : ∃ m, q = m + 1 := ⟨q - 1, by omega⟩
  rw [splitIndex, splitIndex, Nat.add_sub_cancel, Nat.add_sub_cancel, List.range'_concat, List.filter_append, Nat.one_mul,
    Nat.add_comm 1 m]
  congr 1
  rw [List.filter_cons, List.filter_nil]
  simp only [decide_eq_true_eq, Nat.add_sub_cancel]

/-- The loop has come to the indices from `q` on: with what stands between the last cut and `q`, it has the runs. -/
structure Cut.Ok (node : List Nat) (quota q : Nat) (s : Cut) : Prop where
  runs_eq : runs (node.take q) = s.ret ++ [slice node s.lastIdx q]
  lastIdx_lt : s.lastIdx < q
  quota_eq : s.lastIdx + s.quota = quota

theorem Cut.Ok.next {node : List Nat} {quota q : Nat} {s : Cut} (h : s.Ok node quota q) (hq : q < quota)
    (hlen : q < node.length) :
    (if node.getD q 0 ≠ node.getD (q - 1) 0 + 1 then cut node s q else s).Ok node quota (q + 1) := by
  have hlast := h.lastIdx_lt
  have hquota := h.quota_eq
  have htake : node.take (q + 1) = node.take q ++ [node.getD q 0] := slice_succ (Nat.zero_le q) hlen
  have hy : (node.take q).getLast? = some (node.getD (q - 1) 0) := by
    rw [List.getLast?_eq_getElem?, List.length_take_of_le (by omega), List.getElem?_take_of_lt (by omega),
      List.getD_eq_getElem?_getD, List.getElem?_eq_getElem (show q - 1 < node.length by omega)]
    rfl
  have hconcat := runs_concat h.runs_eq hy (node.getD q 0)
  rw [← htake] at hconcat
  by_cases hgap : node.getD q 0 = node.getD (q - 1) 0 + 1
  · rw [if_pos (follows_iff.mpr hgap), ← slice_succ (by omega) hlen] at hconcat
    rw [if_neg (not_not.mpr hgap)]
    exact ⟨hconcat, by omega, hquota⟩
  · have hone : slice node q (q + 1) = [node.getD q 0] := by
      rw [slice_succ (Nat.le_refl q) hlen, slice, Nat.sub_self]
      rfl
    rw [if_neg fun hf => hgap (follows_iff.mp hf), ← hone] at hconcat
    rw [if_pos hgap]
    refine ⟨hconcat, Nat.lt_succ_self q, ?_⟩
    simp only [cut]
    omega

theorem foldl_cut {node : List Nat} {quota q : Nat} (hpos : 1 ≤ q) (hq : q ≤ quota) (hlen : q ≤ node.length) :
    ((splitIndex node q).foldl (cut node) ⟨[], quota, 0⟩).Ok node quota q := by
  induction q, hpos using Nat.le_induction with
  | base =>
    cases node with
    | nil => cases hlen
    | cons c node => exact ⟨rfl, Nat.one_pos, Nat.zero_add quota⟩
  | succ q hpos ih =>
    have hnext := (ih (by omega) (by omega)).next hq hlen
    rw [splitIndex_succ node hpos, List.foldl_append]
    split
    · next hgap =>
      rw [if_pos hgap] at hnext
      exact hnext
    · next hgap =>
      rw [if_neg hgap] at hnext
      exact hnext

theorem foldl_eraseIdx {node : List Nat} {q : Nat} (h : q ≤ node.length) :
    (List.range q).reverse.foldl List.eraseIdx node = node.drop q := by
  induction q generalizing node with
  | zero => rfl
  | succ q ih =>
    have hlen : q ≤ (node.eraseIdx q).length := by
      rw [List.length_eraseIdx_of_lt h]
      omega
    rw [List.range_succ, List.reverse_append, List.reverse_singleton, List.singleton_append, List.foldl_cons, ih hlen,
      List.eraseIdx_eq_take_drop_succ, List.drop_left' (List.length_take_of_le (by omega))]

theorem allocateNode_eq (cpuNum : Nat) {quota : Nat} (hpos : 1 ≤ quota) {node : List Nat} (hlen : quota ≤ node.length) :
    allocateNode env cpuNum quota node = (allocationOf env cpuNum (node.take quota), node.drop quota) := by
  have hcut := foldl_cut hpos (Nat.le_refl quota) hlen
  have hne : node.take quota ≠ [] := List.ne_nil_of_length_pos (by rw [List.length_take_of_le hlen]; exact hpos)
  -- the loop has the earlier runs, and what is left is the last one
  have hruns := hcut.runs_eq
  rw [runs_eq hne] at hruns
  obtain ⟨hearlier, hlast⟩ := List.append_inj' hruns rfl
  rw [List.singleton_inj] at hlast
  simp only [allocateNode, hcut.quota_eq, foldl_eraseIdx hlen, ← hearlier, ← hlast, allocationOf, usable, siblings]
  split
  · rfl
  · rw [List.append_nil]

/-- The loop over the nodes is first fit. -/
theorem allocateNodes_eq (cpuNum : Nat) {quota : Nat} (hpos : 1 ≤ quota) (nodes : List (List Nat)) :
    allocateNodes env cpuNum quota nodes = match take quota nodes with
      | some r => (allocationOf env cpuNum r.1, r.2)
      | none => ([], nodes) := by
  induction nodes with
  | nil => rfl
  | cons node nodes ih =>
    unfold allocateNodes take
    by_cases hlen : quota ≤ node.length
    · rw [if_neg (Nat.not_lt.mpr hlen), if_pos hlen, allocateNode_eq env cpuNum hpos hlen]
    · rw [if_pos (Nat.lt_of_not_le hlen), if_neg hlen, ih]
      cases take quota nodes with
      | none => rfl
      | some r => rfl

theorem allocationOf_ne_nil (cpuNum : Nat) (share : List Nat) : allocationOf env cpuNum share ≠ [] := by
  simp [allocationOf]

theorem allocateQuota_eq (cpuNum quota : Nat) (s : List Allocation × List (List Nat)) :
    allocateQuota env cpuNum quota s = .ok (match takeUpTo quota s.2 with
      | some r => (s.1 ++ [allocationOf env cpuNum r.1], r.2)
      | none => s) := by
  induction quota with
  | zero => rfl
  | succ quota ih =>
    have hget : getAllocation env s.2 (quota + 1) cpuNum = .ok (allocateNodes env cpuNum (quota + 1) s.2) :=
      if_neg (by omega)
    rw [allocateNodes_eq env cpuNum (show 1 ≤ quota + 1 by omega)] at hget
    rw [allocateQuota, hget, takeUpTo]
    cases take (quota + 1) s.2 with
    | some r => exact if_pos (allocationOf_ne_nil env cpuNum r.1)
    | none =>
      show (if ([] : Allocation) ≠ [] then .ok (s.1 ++ [[]], s.2) else allocateQuota env cpuNum quota s) = _
      rw [if_neg (not_not.mpr rfl), ih]

theorem foldlM_allocateQuota (cpuNum : Nat) (quotas : List Int) (ret : List Allocation) (nodes : List (List Nat)) :
    ∃ rest, quotas.foldlM (fun s quota => allocateQuota env cpuNum quota.toNat s) (ret, nodes) =
      .ok (ret ++ (shares (quotas.map Int.toNat) nodes).map (allocationOf env cpuNum), rest) := by
  induction quotas generalizing ret nodes with
  | nil => exact ⟨nodes, by rw [List.map_nil, shares, List.map_nil, List.append_nil]; rfl⟩
  | cons quota quotas ih =>
    rw [List.map_cons, shares, List.foldlM_cons, allocateQuota_eq]
    cases takeUpTo quota.toNat nodes with
    | some r =>
      obtain ⟨rest, hrest⟩ := ih (ret ++ [allocationOf env cpuNum r.1]) r.2
      refine ⟨rest, hrest.trans ?_⟩
      rw [List.map_cons, List.append_assoc, List.singleton_append]
    | none => exact ih ret nodes

/-! ## Quotas -/

theorem shrink_of_not {tooLarge : Int → Bool} {quota : Int} (h : tooLarge quota = false) (n : Nat) :
    shrink tooLarge n quota = quota := by
  cases n with
  | zero => rfl
  | succ n => rw [shrink, h, Bool.and_false, if_neg Bool.false_ne_true]

theorem shrink_gt (size : Nat) {n : Nat} {quota : Int} (h : quota = n) :
    shrink (fun q => q > (size : Int)) n quota = (min n size : Nat) := by
  induction n generalizing quota with
  | zero => rw [shrink, h, Nat.zero_min]
  | succ n ih =>
    by_cases hgt : n + 1 ≤ size
    · rw [shrink_of_not (decide_eq_false (by omega)), h, Nat.min_eq_left hgt]
    · have hcond : (decide (quota ≥ 1) && decide (quota > (size : Int))) = true := by
        rw [Bool.and_eq_true, decide_eq_true_eq, decide_eq_true_eq]
        omega
      rw [shrink, if_pos hcond, ih (by omega)]
      congr 1
      omega

/-- The quotas without anything in the environment: an equal part of the cores for all but the root, which gets the
others, as far as the first node has them. -/
def quotas (nodes : List (List Nat)) (cpuNum localSize : Nat) : List Nat :=
  List.replicate (localSize - 1) (cpuNum / localSize) ++
    [min (cpuNum - cpuNum / localSize * (localSize - 1)) (nodeSize env nodes)]

variable {env}

theorem getQuota_eq (hdefault : env.numaDefaultQuota = none) (hroot : env.numaRootQuota = 0) (nodes : List (List Nat))
    (cpuNum : Nat) {localSize : Nat} (hpos : 1 ≤ localSize) :
    getQuota env nodes cpuNum localSize = .ok ((quotas env nodes cpuNum localSize).map Int.ofNat) := by
  have hle : cpuNum / localSize * localSize ≤ cpuNum := Nat.div_mul_le_self cpuNum localSize
  have hsub : cpuNum / localSize * (localSize - 1) ≤ cpuNum :=
    (Nat.mul_le_mul_left _ (Nat.sub_le localSize 1)).trans hle
  have hnot : decide (((cpuNum / localSize : Nat) : Int) * localSize > cpuNum) = false := by
    refine decide_eq_false (Int.not_lt.mpr ?_)
    exact_mod_cast hle
  have hrootQuota : (cpuNum : Int) - ((cpuNum / localSize : Nat) : Int) * ((localSize : Int) - 1) =
      (cpuNum - cpuNum / localSize * (localSize - 1) : Nat) := by
    rw [Int.ofNat_sub hsub, Int.natCast_mul, Int.ofNat_sub hpos]
    rfl
  have hshrink := shrink_gt (nodeSize env nodes) hrootQuota
  rw [getQuota, if_neg (by omega), hdefault, hroot]
  simp only [Option.getD_none, ne_eq, not_true_eq_false, if_false]
  rw [shrink_of_not hnot]
  simp only [hrootQuota, Int.toNat_natCast]
  rw [hrootQuota] at hshrink
  rw [hshrink, quotas, List.map_append, List.map_replicate]
  rfl

/-! ## Ranks -/

variable (env)

/-- The number of physical cores. -/
def coreCount (cpus : List (List Nat)) : Nat := (getNumaInfo env cpus).flatten.length

/-- The shares of the ranks, the root being the last. -/
def shareList (cpus : List (List Nat)) (localSize : Nat) : List (List Nat) :=
  shares (quotas env (getNumaInfo env cpus) (coreCount env cpus) localSize) (getNumaInfo env cpus)

theorem foldl_length (nodes : List (List Nat)) (n : Nat) :
    nodes.foldl (fun x y => x + y.length) n = n + nodes.flatten.length := by
  induction nodes generalizing n with
  | nil => rfl
  | cons node nodes ih => rw [List.foldl_cons, ih, List.flatten_cons, List.length_append, Nat.add_assoc]

variable {env}

/-- **The call**, without quotas in the environment. -/
theorem allocateCpu_eq (hdefault : env.numaDefaultQuota = none) (hroot : env.numaRootQuota = 0)
    {cpus : List (List Nat)} (hne : cpus ≠ []) {localSize : Nat} (hpos : 1 ≤ localSize) :
    allocateCpu env cpus localSize =
      .ok (some ((shareList env cpus localSize).map (allocationOf env (coreCount env cpus)))) := by
  have hnodes : getNumaInfo env cpus ≠ [] := fun h => hne (List.map_eq_nil_iff.mp h)
  have hnum : (getNumaInfo env cpus).foldl (fun x y => x + y.length) 0 = coreCount env cpus := by
    rw [foldl_length, Nat.zero_add, coreCount]
  obtain ⟨rest, hfold⟩ := foldlM_allocateQuota env (coreCount env cpus)
    ((quotas env (getNumaInfo env cpus) (coreCount env cpus) localSize).map Int.ofNat) [] (getNumaInfo env cpus)
  have htoNat : ∀ l : List Nat, (l.map Int.ofNat).map Int.toNat = l := fun l => by
    rw [List.map_map]
    exact List.map_id l
  rw [htoNat, List.nil_append] at hfold
  simp only [allocateCpu, if_neg hnodes, hnum, getQuota_eq hdefault hroot _ _ hpos, bind, Except.bind, hfold]
  rfl

theorem length_shareList {cpus : List (List Nat)} {localSize : Nat} (hpos : 1 ≤ localSize)
    (hcores : localSize ≤ coreCount env cpus) :
    (shareList env cpus localSize).length = localSize ↔ 1 ≤ nodeSize env (getNumaInfo env cpus) := by
  have hquota : 0 < coreCount env cpus / localSize := Nat.div_pos hcores hpos
  have hle : coreCount env cpus / localSize * localSize ≤ coreCount env cpus := Nat.div_mul_le_self _ _
  have hroot : coreCount env cpus / localSize * (localSize - 1) < coreCount env cpus := by
    refine Nat.lt_of_lt_of_le ?_ hle
    exact Nat.mul_lt_mul_of_pos_left (by omega) hquota
  have hsum : (quotas env (getNumaInfo env cpus) (coreCount env cpus) localSize).sum ≤ coreCount env cpus := by
    rw [quotas, List.sum_append, List.sum_replicate_nat, List.sum_singleton, Nat.mul_comm]
    omega
  rw [shareList, length_shares hsum, quotas, List.countP_append, List.countP_replicate, if_pos (decide_eq_true hquota),
    List.countP_singleton]
  split
  · next h =>
    rw [decide_eq_true_eq] at h
    omega
  · next h =>
    rw [decide_eq_true_eq] at h
    omega

/-! ## Texts -/

variable (env)

/-- No CPU of the blacklist is between the ends of a set of the allocation, and there is no empty set. -/
structure Clean (cpuNum : Nat) (share : List Nat) : Prop where
  allowed_earlier : ∀ c ∈ (earlier share).flatten, allowed env c
  usable_run : usable env share ≠ [] ∧ Contiguous (usable env share)
  siblings_run : env.multithreadedCpu → siblings env cpuNum share ≠ [] ∧ Contiguous (siblings env cpuNum share)

variable {env}

theorem mem_allocationOf {cpuNum : Nat} {share cpuSet : List Nat} : cpuSet ∈ allocationOf env cpuNum share ↔
    cpuSet ∈ earlier share ∨ cpuSet = usable env share ∨ env.multithreadedCpu ∧ cpuSet = siblings env cpuNum share := by
  rw [allocationOf, List.mem_append, List.mem_append, List.mem_singleton, or_assoc]
  cases env.multithreadedCpu with
  | true => simp
  | false => simp

theorem contiguous_earlier {share cpuSet : List Nat} (h : cpuSet ∈ earlier share) : cpuSet ≠ [] ∧ Contiguous cpuSet :=
  contiguous_of_mem_runs (List.dropLast_subset _ h)

theorem contiguous_lastRun {share : List Nat} (h : share ≠ []) : Contiguous (lastRun share) := by
  refine (contiguous_of_mem_runs (l := share) ?_).2
  rw [runs_eq h]
  exact List.mem_append_right _ List.mem_cons_self

theorem Clean.set {cpuNum : Nat} {share cpuSet : List Nat} (h : Clean env cpuNum share)
    (hset : cpuSet ∈ allocationOf env cpuNum share) :
    cpuSet ≠ [] ∧ Contiguous cpuSet ∧ ∀ c ∈ cpuSet, allowed env c := by
  rcases mem_allocationOf.mp hset with hset | rfl | ⟨hmt, rfl⟩
  · obtain ⟨hne, hcont⟩ := contiguous_earlier hset
    exact ⟨hne, hcont, fun c hc => h.allowed_earlier c (List.mem_flatten.mpr ⟨cpuSet, hset, hc⟩)⟩
  · exact ⟨h.usable_run.1, h.usable_run.2, fun c hc => (List.mem_filter.mp hc).2⟩
  · exact ⟨(h.siblings_run hmt).1, (h.siblings_run hmt).2, fun c hc => (List.mem_filter.mp hc).2⟩

theorem clean_of_sets {cpuNum : Nat} {share : List Nat} (hne : share ≠ [])
    (hsets : ∀ cpuSet ∈ allocationOf env cpuNum share, cpuSet ≠ [] ∧ ∀ c, InHull cpuSet c → allowed env c) :
    Clean env cpuNum share := by
  have husable := hsets _ (mem_allocationOf.mpr (.inr (.inl rfl)))
  have hcont : Contiguous (usable env share) := (contiguous_filter_iff (contiguous_lastRun hne) husable.1).mpr husable.2
  refine ⟨fun c hc => ?_, ⟨husable.1, hcont⟩, fun hmt => ?_⟩
  · obtain ⟨cpuSet, hset, hmem⟩ := List.mem_flatten.mp hc
    have hrun := contiguous_earlier hset
    exact (hsets cpuSet (mem_allocationOf.mpr (.inl hset))).2 c ((hrun.2.mem_iff hrun.1).mp hmem)
  · have hsib := hsets _ (mem_allocationOf.mpr (.inr (.inr ⟨hmt, rfl⟩)))
    exact ⟨hsib.1, (contiguous_filter_iff (hcont.map_add cpuNum) hsib.1).mpr hsib.2⟩

variable (env)

/-- The text of a rank stands for its allocation, and for no CPU of the blacklist. -/
def TextOk (allocation : Allocation) : Prop :=
  ∃ text, numa allocation = .ok text ∧ (∀ c, Denotes text c ↔ c ∈ allocation.flatten) ∧
    ∀ c, Denotes text c → allowed env c

variable {env}

theorem TextOk.disjoint_iff {allocation allocation' : Allocation} (h : TextOk env allocation) (h' : TextOk env allocation') :
    (∀ text text', numa allocation = .ok text → numa allocation' = .ok text' → ∀ c, ¬ (Denotes text c ∧ Denotes text' c)) ↔
      ∀ c, ¬ (c ∈ allocation.flatten ∧ c ∈ allocation'.flatten) := by
  obtain ⟨text, htext, hmem, -⟩ := h
  obtain ⟨text', htext', hmem', -⟩ := h'
  constructor
  · intro hall c hc
    exact hall text text' htext htext' c ⟨(hmem c).mpr hc.1, (hmem' c).mpr hc.2⟩
  · intro hall u u' hu hu' c hc
    rw [htext] at hu
    rw [htext'] at hu'
    cases hu
    cases hu'
    exact hall c ⟨(hmem c).mp hc.1, (hmem' c).mp hc.2⟩

theorem text_iff {cpuNum : Nat} {share : List Nat} (hne : share ≠ []) :
    TextOk env (allocationOf env cpuNum share) ↔ Clean env cpuNum share := by
  have halloc := allocationOf_ne_nil env cpuNum share
  constructor
  · intro hok
    obtain ⟨text, htext, -, hallowed⟩ := hok
    have hsets : ∀ cpuSet ∈ allocationOf env cpuNum share, cpuSet ≠ [] := by
      intro cpuSet hset hnil
      rw [numa_nil (hnil ▸ hset)] at htext
      cases htext
    obtain ⟨text', htext', hread⟩ := numa_eq halloc hsets
    rw [htext] at htext'
    cases htext'
    exact clean_of_sets hne fun cpuSet hset =>
      ⟨hsets cpuSet hset, fun c hc => hallowed c ((denotes_iff hread).mpr ⟨cpuSet, hset, hc⟩)⟩
  · intro hclean
    obtain ⟨text, htext, hread⟩ := numa_eq halloc fun cpuSet hset => (hclean.set hset).1
    have hmem : ∀ c, Denotes text c ↔ ∃ cpuSet ∈ allocationOf env cpuNum share, c ∈ cpuSet := by
      intro c
      rw [denotes_iff hread]
      constructor
      · intro hhull
        obtain ⟨cpuSet, hset, hc⟩ := hhull
        obtain ⟨hne', hcont, -⟩ := hclean.set hset
        exact ⟨cpuSet, hset, (hcont.mem_iff hne').mpr hc⟩
      · intro hmem
        obtain ⟨cpuSet, hset, hc⟩ := hmem
        obtain ⟨hne', hcont, -⟩ := hclean.set hset
        exact ⟨cpuSet, hset, (hcont.mem_iff hne').mp hc⟩
    refine ⟨text, htext, fun c => (hmem c).trans List.mem_flatten.symm, fun c hc => ?_⟩
    obtain ⟨cpuSet, hset, hcs⟩ := (hmem c).mp hc
    exact (hclean.set hset).2.2 c hcs

/-! ## Two ranks -/

variable (env)

/-- No CPU that is added to a rank is a core of the other one. -/
def Apart (cpuNum : Nat) (share share' : List Nat) : Prop := ∀ c ∈ siblings env cpuNum share, c ∉ share'

variable {env}

theorem mem_share {share : List Nat} (hne : share ≠ []) {c : Nat} :
    c ∈ share ↔ c ∈ (earlier share).flatten ∨ c ∈ lastRun share := by
  have hflat := flatten_runs share
  rw [runs_eq hne, List.flatten_append, List.flatten_singleton] at hflat
  rw [← List.mem_append, hflat]

/-- The CPUs of an allocation: cores of the share, and siblings. -/
theorem mem_flatten_allocationOf {cpuNum : Nat} {share : List Nat} (hne : share ≠ []) (hclean : Clean env cpuNum share)
    {c : Nat} : c ∈ (allocationOf env cpuNum share).flatten ↔
      c ∈ share ∧ allowed env c ∨ env.multithreadedCpu ∧ c ∈ siblings env cpuNum share := by
  rw [mem_share hne, List.mem_flatten]
  constructor
  · intro hmem
    obtain ⟨cpuSet, hset, hc⟩ := hmem
    have hallowed := (hclean.set hset).2.2 c hc
    rcases mem_allocationOf.mp hset with hset | rfl | ⟨hmt, rfl⟩
    · exact .inl ⟨.inl (List.mem_flatten.mpr ⟨cpuSet, hset, hc⟩), hallowed⟩
    · exact .inl ⟨.inr (List.mem_of_mem_filter hc), hallowed⟩
    · exact .inr ⟨hmt, hc⟩
  · intro hmem
    rcases hmem with ⟨hc | hc, hallowed⟩ | ⟨hmt, hc⟩
    · obtain ⟨cpuSet, hset, hc⟩ := List.mem_flatten.mp hc
      exact ⟨cpuSet, mem_allocationOf.mpr (.inl hset), hc⟩
    · exact ⟨_, mem_allocationOf.mpr (.inr (.inl rfl)), List.mem_filter.mpr ⟨hc, hallowed⟩⟩
    · exact ⟨_, mem_allocationOf.mpr (.inr (.inr ⟨hmt, rfl⟩)), hc⟩

theorem mem_siblings {cpuNum : Nat} {share : List Nat} (hne : share ≠ []) {c : Nat}
    (h : c ∈ siblings env cpuNum share) : allowed env c ∧ ∃ x ∈ share, c = x + cpuNum := by
  obtain ⟨hmem, hallowed⟩ := List.mem_filter.mp h
  obtain ⟨x, hx, rfl⟩ := List.mem_map.mp hmem
  exact ⟨hallowed, x, (mem_share hne).mpr (.inr (List.mem_of_mem_filter hx)), rfl⟩

theorem apart_iff {cpuNum : Nat} {share share' : List Nat} (hne : share ≠ []) (hne' : share' ≠ [])
    (hclean : Clean env cpuNum share) (hclean' : Clean env cpuNum share') (hdisjoint : share.Disjoint share') :
    (∀ c, ¬ (c ∈ (allocationOf env cpuNum share).flatten ∧ c ∈ (allocationOf env cpuNum share').flatten)) ↔
      (env.multithreadedCpu → Apart env cpuNum share share' ∧ Apart env cpuNum share' share) := by
  simp only [mem_flatten_allocationOf hne hclean, mem_flatten_allocationOf hne' hclean']
  constructor
  · intro h hmt
    refine ⟨fun c hc hc' => ?_, fun c hc hc' => ?_⟩
    · exact h c ⟨.inr ⟨hmt, hc⟩, .inl ⟨hc', (mem_siblings hne hc).1⟩⟩
    · exact h c ⟨.inl ⟨hc', (mem_siblings hne' hc).1⟩, .inr ⟨hmt, hc⟩⟩
  · intro hapart c hboth
    rcases hboth with ⟨⟨hc, -⟩ | ⟨hmt, hc⟩, ⟨hc', -⟩ | ⟨hmt', hc'⟩⟩
    · exact hdisjoint hc hc'
    · exact (hapart hmt').2 c hc' hc
    · exact (hapart hmt).1 c hc hc'
    · -- two siblings with one number belong to one core
      obtain ⟨-, x, hx, rfl⟩ := mem_siblings hne hc
      obtain ⟨-, y, hy, heq⟩ := mem_siblings hne' hc'
      obtain rfl : x = y := Nat.add_right_cancel heq
      exact hdisjoint hx hy

/-! ## All ranks -/

/-- A NUMA topology: the CPUs of the nodes, in order, no CPU in two nodes. -/
structure Topology where
  nodes : List (List Nat)
  ne_nil : nodes ≠ []
  sorted : ∀ node ∈ nodes, node.Pairwise (· < ·)
  disjoint : nodes.Pairwise List.Disjoint

variable (env)

/-- Every rank has an allocation; its text stands for it and for nothing on the blacklist; the texts of two
ranks have no CPU in common. -/
def Correct (cpus : List (List Nat)) (localSize : Nat) : Prop :=
  ∃ allocations, allocateCpu env cpus localSize = .ok (some allocations) ∧ allocations.length = localSize ∧
    (∀ allocation ∈ allocations, TextOk env allocation) ∧
      allocations.Pairwise fun allocation allocation' => ∀ text text', numa allocation = .ok text →
        numa allocation' = .ok text' → ∀ c, ¬ (Denotes text c ∧ Denotes text' c)

/-- The first node is large enough for the root to get a core; no share has a CPU of the blacklist in a place where it
is not left out; no added CPU is a core of another rank. -/
structure Sound (cpus : List (List Nat)) (localSize : Nat) : Prop where
  root : 1 ≤ nodeSize env (getNumaInfo env cpus)
  clean : ∀ share ∈ shareList env cpus localSize, Clean env (coreCount env cpus) share
  apart : (shareList env cpus localSize).Pairwise fun share share' => env.multithreadedCpu →
    Apart env (coreCount env cpus) share share' ∧ Apart env (coreCount env cpus) share' share

theorem nodup_cores (topology : Topology) : (getNumaInfo env topology.nodes).flatten.Nodup := by
  have hsub : ∀ node : List Nat, (if env.multithreadedCpu then node.take (node.length / 2) else node).Sublist node := by
    intro node
    split
    · exact List.take_sublist _ node
    · exact List.Sublist.refl node
  refine List.nodup_flatten.mpr ⟨fun node hnode => ?_, ?_⟩
  · obtain ⟨node, hmem, rfl⟩ := List.mem_map.mp hnode
    exact ((topology.sorted node hmem).imp fun hlt => hlt.ne).sublist (hsub node)
  · rw [getNumaInfo, List.pairwise_map]
    exact topology.disjoint.imp fun {a b} h _ ha hb => h ((hsub a).subset ha) ((hsub b).subset hb)

/-- **When the allocations are what they should be.** -/
theorem allocateCpu_iff (topology : Topology) {localSize : Nat} (hpos : 1 ≤ localSize)
    (hcores : localSize ≤ coreCount env topology.nodes) (hdefault : env.numaDefaultQuota = none)
    (hroot : env.numaRootQuota = 0) :
    Correct env topology.nodes localSize ↔ Sound env topology.nodes localSize := by
  have hcall := allocateCpu_eq hdefault hroot topology.ne_nil hpos
  have hlength := length_shareList hpos hcores
  have hdisjoint : (shareList env topology.nodes localSize).Pairwise List.Disjoint :=
    pairwise_disjoint_shares _ (nodup_cores env topology)
  have hne : ∀ share ∈ shareList env topology.nodes localSize, share ≠ [] := (taken_shares _ _).2.1
  constructor
  · intro hcorrect
    obtain ⟨allocations, hallocations, hlen, htexts, hpair⟩ := hcorrect
    rw [hcall] at hallocations
    cases hallocations
    rw [List.length_map] at hlen
    rw [List.pairwise_map] at hpair
    have htext : ∀ share ∈ shareList env topology.nodes localSize,
        TextOk env (allocationOf env (coreCount env topology.nodes) share) := fun share hmem =>
      htexts _ (List.mem_map_of_mem hmem)
    refine ⟨hlength.mp hlen, fun share hmem => (text_iff (hne share hmem)).mp (htext share hmem), ?_⟩
    refine (hpair.and hdisjoint).imp_of_mem fun {share share'} hs hs' h => ?_
    refine (apart_iff (hne share hs) (hne share' hs') ?_ ?_ h.2).mp ((htext share hs).disjoint_iff (htext share' hs') |>.mp h.1)
    · exact (text_iff (hne share hs)).mp (htext share hs)
    · exact (text_iff (hne share' hs')).mp (htext share' hs')
  · intro h
    have htext : ∀ share ∈ shareList env topology.nodes localSize,
        TextOk env (allocationOf env (coreCount env topology.nodes) share) := fun share hmem =>
      (text_iff (hne share hmem)).mpr (h.clean share hmem)
    refine ⟨_, hcall, ?_, ?_, ?_⟩
    · rw [List.length_map]
      exact hlength.mpr h.root
    · intro allocation hmem
      obtain ⟨share, hshare, rfl⟩ := List.mem_map.mp hmem
      exact htext share hshare
    · rw [List.pairwise_map]
      refine (h.apart.and hdisjoint).imp_of_mem fun {share share'} hs hs' hpair => ?_
      refine ((htext share hs).disjoint_iff (htext share' hs')).mpr ?_
      exact (apart_iff (hne share hs) (hne share' hs') (h.clean share hs) (h.clean share' hs') hpair.2).mpr hpair.1

/-- Two nodes of two cores each, with hyper-threading: the CPUs 4 to 7 are the siblings of 0 to 3. -/
theorem allocateCpu_iff_two : Correct {} [[0, 1, 4, 5], [2, 3, 6, 7]] 2 := by
  refine (allocateCpu_iff {} ⟨[[0, 1, 4, 5], [2, 3, 6, 7]], by decide, by decide, by simp⟩ (by decide) (by decide) rfl
    rfl).mpr ⟨by decide, ?_, ?_⟩
  · show ∀ share ∈ [[0, 1], [2]], Clean {} 4 share
    rw [List.forall_mem_cons, List.forall_mem_singleton]
    exact ⟨⟨by decide, by decide, by decide⟩, ⟨by decide, by decide, by decide⟩⟩
  · show [[0, 1], [2]].Pairwise fun share share' => _ → Apart {} 4 share share' ∧ Apart {} 4 share' share
    rw [List.pairwise_pair]
    exact fun _ => ⟨by unfold Apart; decide, by unfold Apart; decide⟩

/-- **Counterexample.** Four cores, one rank, and CPU 1 on the blacklist: it is left out of the allocation, but the text
that is written is the one of all four. -/
theorem blacklisted_denoted :
    allocateCpu { multithreadedCpu := false, cpuBlacklist := [1] } [[0, 1, 2, 3]] 1 = .ok (some [[[0, 2, 3]]]) ∧
      numa [[0, 2, 3]] = .ok "numactl --physcpubind 0-3 ".toList ∧ Denotes "numactl --physcpubind 0-3 ".toList 1 :=
  ⟨rfl, rfl, [(0, 3)], rfl, (0, 3), List.mem_cons_self, by decide, by decide⟩

end Inca.L4.CpuAllocation
