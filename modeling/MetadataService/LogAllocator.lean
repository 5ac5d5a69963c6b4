import MetadataService.BufferAllocator
import Mathlib.Data.Int.ConditionallyCompleteOrder
import Mathlib.Tactic.Linarith

namespace MetadataService.Allocator

open WrappingBump

def logBufferSize : Int64 := 1024 * 1024 * 1024

structure LogOffsetAllocator where
  startLogOffsets : Fin 3 → Int64
  endLogOffsets : Fin 3 → Int64
  currentLogOffsets : Fin 3 → Int64

def logOffsetAllocator (tid numThread : UInt32) : LogOffsetAllocator :=
  let perThread := logBufferSize / numThread.toUInt64.toInt64
  { startLogOffsets := fun _ => tid.toUInt64.toInt64 * perThread
    endLogOffsets := fun _ => (tid + 1).toUInt64.toInt64 * perThread
    currentLogOffsets := fun _ => 0 }

namespace LogOffsetAllocator

/-- The sum with `log_entry_size`, a `size_t`, and the comparison are unsigned. -/
def getNextLogOffset (a : LogOffsetAllocator) (node : Fin 3) (size : UInt64) : Int64 × LogOffsetAllocator :=
  let current :=
    if (a.endLogOffsets node).toUInt64 <
        (a.startLogOffsets node + a.currentLogOffsets node).toUInt64 + size then 0
    else a.currentLogOffsets node
  (a.startLogOffsets node + current,
    { a with currentLogOffsets :=
        Function.update a.currentLogOffsets node (current.toUInt64 + size).toInt64 })

end LogOffsetAllocator

/-- The threads of `machine_num` machines, as `GenThreads` numbers them. -/
structure Cluster where
  machineNum : Int32
  threadNumPerMachine : UInt32
  threads : 1 ≤ machineNum.toInt * threadNumPerMachine.toNat ∧
    machineNum.toInt * threadNumPerMachine.toNat ≤ 2 ^ 30

namespace Cluster

variable (c : Cluster)

structure Thread where
  machineId : Int32
  i : UInt32
  machine : 0 ≤ machineId ∧ machineId < c.machineNum
  onMachine : i < c.threadNumPerMachine
deriving DecidableEq

def totalThreadNum : UInt32 := c.threadNumPerMachine * c.machineNum.toUInt32

variable {c}

def Thread.globalId (t : c.Thread) : UInt32 := t.machineId.toUInt32 * c.threadNumPerMachine + t.i

end Cluster

section Numbers

theorem toNat_toUInt32_of_nonneg {x : Int32} (h : 0 ≤ x.toInt) : (x.toUInt32.toNat : ℤ) = x.toInt := by
  rw [Int32.toNat_toUInt32_of_le (Int32.le_iff_toInt_le.mpr h), ← Int32.toNat_toInt, Int.toNat_of_nonneg h]

theorem toNat_toUInt64_of_toInt {x : Int64} {k : ℕ} (h : x.toInt = k) : x.toUInt64.toNat = k := by
  have hle : (0 : Int64) ≤ x := by
    rw [Int64.le_iff_toInt_le, h]
    exact Int.natCast_nonneg k
  rw [Int64.toNat_toUInt64_of_le hle, ← Int64.toNat_toInt, h, Int.toNat_natCast]

theorem toInt_of_toNat_toUInt64 {x : Int64} {k : ℕ} (h : x.toUInt64.toNat = k) (hk : k < 2 ^ 63) :
    x.toInt = k := by
  have hbv : x.toBitVec.toNat = k := h
  change x.toBitVec.toInt = k
  rw [BitVec.toInt_eq_toNat_of_lt (by omega), hbv]

theorem toInt_toInt64_toUInt64 (x : UInt32) : x.toUInt64.toInt64.toInt = x.toNat := by
  apply toInt_of_toNat_toUInt64
  · rw [UInt64.toUInt64_toInt64, UInt32.toNat_toUInt64]
  · exact x.toNat_lt.trans (by decide)

end Numbers

namespace Cluster

section ThreadIds

variable (c : Cluster)

theorem machineNum_pos : 0 < c.machineNum.toInt := by
  by_contra h
  have hle := mul_nonpos_of_nonpos_of_nonneg (not_lt.mp h) (Int.natCast_nonneg c.threadNumPerMachine.toNat)
  have hone := c.threads.1
  omega

theorem machineNum_toNat : (c.machineNum.toUInt32.toNat : ℤ) = c.machineNum.toInt :=
  toNat_toUInt32_of_nonneg c.machineNum_pos.le

theorem total_room : 0 < c.machineNum.toUInt32.toNat * c.threadNumPerMachine.toNat ∧
    c.machineNum.toUInt32.toNat * c.threadNumPerMachine.toNat ≤ 2 ^ 30 := by
  have hthreads := c.threads
  rw [← c.machineNum_toNat] at hthreads
  exact_mod_cast hthreads

theorem totalThreadNum_toNat :
    c.totalThreadNum.toNat = c.machineNum.toUInt32.toNat * c.threadNumPerMachine.toNat := by
  have hroom := c.total_room
  rw [totalThreadNum, UInt32.toNat_mul, Nat.mul_comm, Nat.mod_eq_of_lt (by omega)]

variable {c}

theorem Thread.machineId_lt (t : c.Thread) :
    t.machineId.toUInt32.toNat < c.machineNum.toUInt32.toNat := by
  have hid := toNat_toUInt32_of_nonneg (Int32.le_iff_toInt_le.mp t.machine.1)
  have hnum := c.machineNum_toNat
  have hlt := Int32.lt_iff_toInt_lt.mp t.machine.2
  omega

theorem Thread.globalId_room (t : c.Thread) :
    t.machineId.toUInt32.toNat * c.threadNumPerMachine.toNat + t.i.toNat < c.totalThreadNum.toNat := by
  have hi := UInt32.lt_iff_toNat_lt.mp t.onMachine
  have hmul := Nat.mul_le_mul_right c.threadNumPerMachine.toNat t.machineId_lt
  rw [Nat.succ_mul] at hmul
  rw [c.totalThreadNum_toNat]
  omega

theorem Thread.globalId_toNat (t : c.Thread) :
    t.globalId.toNat = t.machineId.toUInt32.toNat * c.threadNumPerMachine.toNat + t.i.toNat := by
  have hlt := t.globalId_room
  have htotal := c.totalThreadNum.toNat_lt
  rw [globalId, UInt32.toNat_add, UInt32.toNat_mul, Nat.mod_add_mod, Nat.mod_eq_of_lt (by omega)]

theorem Thread.globalId_lt (t : c.Thread) : t.globalId.toNat < c.totalThreadNum.toNat :=
  t.globalId_toNat ▸ t.globalId_room

theorem Thread.globalId_inj {t u : c.Thread} (h : t.globalId.toNat = u.globalId.toNat) : t = u := by
  have ht := UInt32.lt_iff_toNat_lt.mp t.onMachine
  have hu := UInt32.lt_iff_toNat_lt.mp u.onMachine
  rw [t.globalId_toNat, u.globalId_toNat] at h
  have hi : t.i.toNat = u.i.toNat := by
    have hmod := congrArg (· % c.threadNumPerMachine.toNat) h
    simpa only [Nat.mul_add_mod_self_right, Nat.mod_eq_of_lt ht, Nat.mod_eq_of_lt hu] using hmod
  have hid : t.machineId.toUInt32.toNat = u.machineId.toUInt32.toNat := by
    rw [hi] at h
    exact Nat.eq_of_mul_eq_mul_right (Nat.zero_lt_of_lt ht) (Nat.add_right_cancel h)
  obtain ⟨m, i, _, _⟩ := t
  obtain ⟨m', i', _, _⟩ := u
  obtain rfl : i = i' := UInt32.toNat_inj.mp hi
  obtain rfl : m = m' := by simpa using congrArg UInt32.toInt32 (UInt32.toNat_inj.mp hid)
  rfl

end ThreadIds

end Cluster

namespace LogOffsetAllocator

def area (a : LogOffsetAllocator) (node : Fin 3) : RDMABufferAllocator :=
  ⟨(a.startLogOffsets node).toUInt64, (a.endLogOffsets node).toUInt64, (a.currentLogOffsets node).toUInt64⟩

variable {a b : LogOffsetAllocator} {node k : Fin 3} {size : UInt64}

theorem getNextLogOffset_area (a : LogOffsetAllocator) (node : Fin 3) (size : UInt64) : ((a.area node).alloc size) =
    ((a.getNextLogOffset node size).1.toUInt64, (a.getNextLogOffset node size).2.area node) := by
  have hsum : (a.startLogOffsets node + a.currentLogOffsets node).toUInt64 =
      (a.startLogOffsets node).toUInt64 + (a.currentLogOffsets node).toUInt64 := Int64.toUInt64_add _ _
  by_cases h : (a.endLogOffsets node).toUInt64 <
      (a.startLogOffsets node).toUInt64 + (a.currentLogOffsets node).toUInt64 + size
  · simp [RDMABufferAllocator.alloc, area, getNextLogOffset, hsum, h]
  · simp [RDMABufferAllocator.alloc, area, getNextLogOffset, hsum, h]

structure AgreesOn (node : Fin 3) (a b : LogOffsetAllocator) : Prop where
  start : a.startLogOffsets node = b.startLogOffsets node
  stop : a.endLogOffsets node = b.endLogOffsets node
  current : a.currentLogOffsets node = b.currentLogOffsets node

theorem getNextLogOffset_other (hne : k ≠ node) : AgreesOn k (a.getNextLogOffset node size).2 a :=
  ⟨rfl, rfl, Function.update_of_ne hne _ _⟩

theorem AgreesOn.trans {d : LogOffsetAllocator} (h : AgreesOn k a b) (h' : AgreesOn k b d) :
    AgreesOn k a d :=
  ⟨h.start.trans h'.start, h.stop.trans h'.stop, h.current.trans h'.current⟩

theorem AgreesOn.area (h : AgreesOn k a b) : a.area k = b.area k := by
  rw [LogOffsetAllocator.area, LogOffsetAllocator.area, h.start, h.stop, h.current]

theorem AgreesOn.getNextLogOffset (h : AgreesOn k a b) (size : UInt64) :
    (a.getNextLogOffset k size).1 = (b.getNextLogOffset k size).1 ∧
      AgreesOn k (a.getNextLogOffset k size).2 (b.getNextLogOffset k size).2 := by
  have hret : (a.getNextLogOffset k size).1 = (b.getNextLogOffset k size).1 := by
    simp only [LogOffsetAllocator.getNextLogOffset, h.start, h.stop, h.current]
  refine ⟨hret, h.start, h.stop, ?_⟩
  simp only [LogOffsetAllocator.getNextLogOffset, h.start, h.stop, h.current, Function.update_self]

end LogOffsetAllocator

structure LogEntry (T : Type) where
  thread : T
  node : Fin 3
  offset : Int64
  size : UInt64

def LogEntry.bytes {T : Type} (e : LogEntry T) : Set ℤ := Set.Ico e.offset.toInt (e.offset.toInt + e.size.toNat)

section Calls

variable {T : Type} [DecidableEq T]

def writeLogs : List (T × Fin 3 × UInt64) → (T → LogOffsetAllocator) →
    List (LogEntry T) × (T → LogOffsetAllocator)
  | [], allocators => ([], allocators)
  | (thread, node, size) :: calls, allocators =>
    let (offset, a) := (allocators thread).getNextLogOffset node size
    let (entries, allocators) := writeLogs calls (Function.update allocators thread a)
    (⟨thread, node, offset, size⟩ :: entries, allocators)

variable {calls : List (T × Fin 3 × UInt64)} {allocators others : T → LogOffsetAllocator}

theorem writeLogs_calls : (writeLogs calls allocators).1.map (fun e => (e.thread, e.node, e.size)) = calls := by
  induction calls generalizing allocators with
  | nil => rfl
  | cons call calls ih =>
    rw [writeLogs, List.map_cons, ih]

theorem writeLogs_buffers (t : T) (k : Fin 3) {e : LogEntry T} (he : e ∈ (writeLogs calls allocators).1)
    (ht : e.thread = t) (hk : e.node = k) :
    (⟨t, e.offset.toUInt64, e.size⟩ : Buffer T) ∈
      allocs t ((calls.filter fun c => c.1 = t ∧ c.2.1 = k).map fun c => c.2.2) ((allocators t).area k) := by
  induction calls generalizing allocators with
  | nil => cases he
  | cons call calls ih =>
    obtain ⟨u, j, size⟩ := call
    by_cases hcall : u = t ∧ j = k
    · obtain ⟨rfl, rfl⟩ := hcall
      have halloc := (allocators u).getNextLogOffset_area j size
      simp only [List.filter_cons, and_self, decide_true, if_true, List.map_cons, allocs, halloc]
      rcases List.mem_cons.mp he with rfl | he
      · exact List.mem_cons_self
      · have htail := ih he
        rw [Function.update_self] at htail
        exact List.mem_cons_of_mem _ htail
    · have harea : (Function.update allocators u ((allocators u).getNextLogOffset j size).2 t).area k =
          (allocators t).area k := by
        by_cases hu : u = t
        · subst hu
          have hjk : k ≠ j := fun h => hcall ⟨rfl, h.symm⟩
          rw [Function.update_self]
          exact (LogOffsetAllocator.getNextLogOffset_other hjk).area
        · rw [Function.update_of_ne (Ne.symm hu)]
      simp only [List.filter_cons, hcall, decide_false, Bool.false_eq_true, if_false]
      rcases List.mem_cons.mp he with rfl | he
      · exact absurd ⟨ht, hk⟩ hcall
      · rw [← harea]
        exact ih he

theorem writeLogs_node {k : Fin 3} (h : ∀ t, (allocators t).AgreesOn k (others t)) :
    (writeLogs calls allocators).1.filter (fun e => e.node = k) =
        (writeLogs (calls.filter fun c => c.2.1 = k) others).1 ∧
      ∀ t, ((writeLogs calls allocators).2 t).AgreesOn k
        ((writeLogs (calls.filter fun c => c.2.1 = k) others).2 t) := by
  induction calls generalizing allocators others with
  | nil => exact ⟨rfl, h⟩
  | cons call calls ih =>
    obtain ⟨u, j, size⟩ := call
    by_cases hj : j = k
    · subst hj
      obtain ⟨hret, hagrees⟩ := (h u).getNextLogOffset size
      have hnext : ∀ t, (Function.update allocators u ((allocators u).getNextLogOffset j size).2 t).AgreesOn j
          (Function.update others u ((others u).getNextLogOffset j size).2 t) := by
        intro t
        by_cases ht : t = u
        · subst ht
          rw [Function.update_self, Function.update_self]
          exact hagrees
        · rw [Function.update_of_ne ht, Function.update_of_ne ht]
          exact h t
      obtain ⟨hentries, hstate⟩ := ih hnext
      simp only [writeLogs, List.filter_cons, decide_true, if_true, hret, hentries]
      exact ⟨trivial, hstate⟩
    · have hnext : ∀ t, (Function.update allocators u ((allocators u).getNextLogOffset j size).2 t).AgreesOn k
          (others t) := by
        intro t
        by_cases ht : t = u
        · subst ht
          rw [Function.update_self]
          exact (LogOffsetAllocator.getNextLogOffset_other (Ne.symm hj)).trans (h t)
        · rw [Function.update_of_ne ht]
          exact h t
      obtain ⟨hentries, hstate⟩ := ih hnext
      simp only [writeLogs, List.filter_cons, hj, decide_false, Bool.false_eq_true, if_false]
      exact ⟨hentries, hstate⟩

end Calls

namespace Cluster

variable (c : Cluster)

def partitionSize : ℕ := 2 ^ 30 / c.totalThreadNum.toNat

def writeLogs (calls : List (c.Thread × Fin 3 × UInt64)) :
    List (LogEntry c.Thread) × (c.Thread → LogOffsetAllocator) :=
  Allocator.writeLogs calls fun t => logOffsetAllocator t.globalId c.totalThreadNum

structure LogsApart (calls : List (c.Thread × Fin 3 × UInt64)) : Prop where
  answers : (c.writeLogs calls).1.map (fun e => (e.thread, e.node, e.size)) = calls
  buffer : ∀ e ∈ (c.writeLogs calls).1, e.bytes ⊆ Set.Ico 0 (2 ^ 30)
  partition : ∀ e ∈ (c.writeLogs calls).1,
    e.bytes ⊆ Set.Ico (e.thread.globalId.toNat * c.partitionSize : ℤ)
      ((e.thread.globalId.toNat + 1) * c.partitionSize)
  threads : ∀ e ∈ (c.writeLogs calls).1, ∀ e' ∈ (c.writeLogs calls).1, e.thread ≠ e'.thread →
    Disjoint e.bytes e'.bytes
  nodes : ∀ k, (c.writeLogs calls).1.filter (fun e => e.node = k) =
      (c.writeLogs (calls.filter fun call => call.2.1 = k)).1 ∧
    ∀ t, ((c.writeLogs calls).2 t).AgreesOn k
      ((c.writeLogs (calls.filter fun call => call.2.1 = k)).2 t)

variable {c}

theorem perThread_toNat (n : UInt32) :
    (logBufferSize / n.toUInt64.toInt64).toUInt64.toNat = 2 ^ 30 / n.toNat := by
  have hsize : logBufferSize.toInt = ((2 ^ 30 : ℕ) : ℤ) := by decide
  have hle : 2 ^ 30 / n.toNat ≤ 2 ^ 30 := Nat.div_le_self _ _
  apply toNat_toUInt64_of_toInt
  rw [Int64.toInt_div, hsize, toInt_toInt64_toUInt64, ← Int.ofNat_tdiv]
  generalize 2 ^ 30 / n.toNat = q at hle
  exact Int.bmod_eq_of_le (by omega) (by omega)

theorem partition_room (t : c.Thread) : t.globalId.toNat * c.partitionSize + c.partitionSize ≤ 2 ^ 30 := by
  have hmul : (t.globalId.toNat + 1) * c.partitionSize ≤ c.totalThreadNum.toNat * c.partitionSize :=
    Nat.mul_le_mul_right _ t.globalId_lt
  have hdiv : c.totalThreadNum.toNat * c.partitionSize ≤ 2 ^ 30 := Nat.mul_div_le _ _
  rw [Nat.succ_mul] at hmul
  omega

theorem area_manages (t : c.Thread) (k : Fin 3) :
    ((logOffsetAllocator t.globalId c.totalThreadNum).area k).start.toNat =
        t.globalId.toNat * c.partitionSize ∧
      ((logOffsetAllocator t.globalId c.totalThreadNum).area k).Manages c.partitionSize := by
  have hroom := c.partition_room t
  have hnext : (t.globalId + 1).toNat = t.globalId.toNat + 1 := by
    have hlt := t.globalId_lt
    have htotal := c.totalThreadNum.toNat_lt
    rw [UInt32.toNat_add, UInt32.toNat_one, Nat.mod_eq_of_lt (by omega)]
  have hmul : ∀ x : UInt32, x.toNat * c.partitionSize ≤ 2 ^ 30 →
      (x.toUInt64.toInt64 * (logBufferSize / c.totalThreadNum.toUInt64.toInt64)).toUInt64.toNat =
        x.toNat * c.partitionSize := by
    intro x hx
    rw [Int64.toUInt64_mul, UInt64.toUInt64_toInt64, UInt64.toNat_mul, UInt32.toNat_toUInt64, perThread_toNat]
    exact Nat.mod_eq_of_lt (by change x.toNat * c.partitionSize < _; omega)
  have hstart := hmul t.globalId (by omega)
  refine ⟨hstart, ?_, Nat.zero_le _, ?_⟩
  · have hstop := hmul (t.globalId + 1) (by rw [hnext, Nat.succ_mul]; exact hroom)
    rw [hnext, Nat.succ_mul, ← hstart] at hstop
    exact hstop
  · rw [show ((logOffsetAllocator t.globalId c.totalThreadNum).area k).start.toNat = _ from hstart]
    omega

section Runs

variable {calls : List (c.Thread × Fin 3 × UInt64)} {e e' : LogEntry c.Thread}

theorem writeLogs_inside (hs : ∀ call ∈ calls, call.2.2.toNat ≤ c.partitionSize)
    (he : e ∈ (c.writeLogs calls).1) :
    e.thread.globalId.toNat * c.partitionSize ≤ e.offset.toUInt64.toNat ∧
      e.offset.toUInt64.toNat + e.size.toNat ≤
        e.thread.globalId.toNat * c.partitionSize + c.partitionSize := by
  obtain ⟨hstart, hmanages⟩ := area_manages e.thread e.node
  have hmem := writeLogs_buffers e.thread e.node he rfl rfl
  have hin := allocs_inside e.thread hmanages (fun size hsize => ?_) _ hmem
  · rw [hstart] at hin
    exact hin
  · obtain ⟨call, hcall, rfl⟩ := List.mem_map.mp hsize
    exact hs call (List.mem_of_mem_filter hcall)

theorem writeLogs_partition (hs : ∀ call ∈ calls, call.2.2.toNat ≤ c.partitionSize)
    (he : e ∈ (c.writeLogs calls).1) :
    e.bytes ⊆ Set.Ico (e.thread.globalId.toNat * c.partitionSize : ℤ)
      ((e.thread.globalId.toNat + 1) * c.partitionSize) := by
  obtain ⟨hlow, hhigh⟩ := writeLogs_inside hs he
  have hroom := c.partition_room e.thread
  have hoffset : e.offset.toInt = e.offset.toUInt64.toNat := toInt_of_toNat_toUInt64 rfl (by omega)
  rw [LogEntry.bytes, hoffset]
  apply Set.Ico_subset_Ico
  · exact_mod_cast hlow
  · rw [← Nat.succ_mul] at hhigh
    exact_mod_cast hhigh

theorem partitions_apart {t u : c.Thread} (hne : t ≠ u) :
    (t.globalId.toNat + 1) * c.partitionSize ≤ u.globalId.toNat * c.partitionSize ∨
      (u.globalId.toNat + 1) * c.partitionSize ≤ t.globalId.toNat * c.partitionSize := by
  rcases Nat.lt_trichotomy t.globalId.toNat u.globalId.toNat with hlt | heq | hlt
  · exact Or.inl (Nat.mul_le_mul_right _ hlt)
  · exact absurd (Thread.globalId_inj heq) hne
  · exact Or.inr (Nat.mul_le_mul_right _ hlt)

theorem writeLogs_threads (hs : ∀ call ∈ calls, call.2.2.toNat ≤ c.partitionSize)
    (he : e ∈ (c.writeLogs calls).1) (he' : e' ∈ (c.writeLogs calls).1) (hne : e.thread ≠ e'.thread) :
    Disjoint e.bytes e'.bytes := by
  apply Set.disjoint_left.mpr
  intro x hx hx'
  obtain ⟨hlow, hhigh⟩ := writeLogs_partition hs he hx
  obtain ⟨hlow', hhigh'⟩ := writeLogs_partition hs he' hx'
  have hapart := partitions_apart hne
  zify at hapart
  omega

end Runs

theorem run_logsApart (c : Cluster) (calls : List (c.Thread × Fin 3 × UInt64))
    (hs : ∀ call ∈ calls, call.2.2.toNat ≤ c.partitionSize) : c.LogsApart calls := by
  refine ⟨writeLogs_calls, ?_, fun e => writeLogs_partition hs, ?_, ?_⟩
  · intro e he
    have hroom := c.partition_room e.thread
    refine (writeLogs_partition hs he).trans (Set.Ico_subset_Ico ?_ ?_)
    · positivity
    · rw [← Nat.succ_mul] at hroom
      exact_mod_cast hroom
  · intro e he e' he'
    exact writeLogs_threads hs he he'
  · intro k
    exact writeLogs_node fun t => ⟨rfl, rfl, rfl⟩

def twoMachines : Cluster := ⟨2, 2, by decide⟩

def wrappingLogs : List (twoMachines.Thread × Fin 3 × UInt64) :=
  [(⟨0, 1, by decide, by decide⟩, 0, 200000000), (⟨1, 0, by decide, by decide⟩, 0, 268435456),
    (⟨0, 1, by decide, by decide⟩, 0, 200000000), (⟨0, 1, by decide, by decide⟩, 1, 64)]

theorem run_logsApart_two_machines :
    (twoMachines.writeLogs wrappingLogs).1.map (fun e => e.offset.toInt) =
        [268435456, 536870912, 268435456, 268435456] ∧ twoMachines.LogsApart wrappingLogs := by
  have hsize : twoMachines.partitionSize = 268435456 := by decide
  refine ⟨by decide +kernel, run_logsApart twoMachines wrappingLogs ?_⟩
  rw [hsize]
  simp [wrappingLogs]

end Cluster

end MetadataService.Allocator
