import MetadataService.WrappingBump

namespace MetadataService.Allocator

open WrappingBump

def perThreadAllocSize : UInt64 := 500 * 1024 * 1024

@[simp]
theorem perThreadAllocSize_toNat : perThreadAllocSize.toNat = 524288000 := by decide

/-- The addresses of the registered buffer, and those that the allocators compute with, do not wrap
around: `malloc` keeps clear of the end of the address space. -/
structure RDMARegionAllocator where
  globalMr : UInt64
  threadNum : UInt32
  room : globalMr.toNat + (threadNum.toNat + 1) * 524288000 < 2 ^ 64

namespace RDMARegionAllocator

abbrev Thread (r : RDMARegionAllocator) := { tid : UInt32 // tid < r.threadNum }

def getThreadLocalRegion (r : RDMARegionAllocator) (tid : r.Thread) : UInt64 × UInt64 :=
  (r.globalMr + tid.1.toUInt64 * perThreadAllocSize, r.globalMr + (tid.1 + 1).toUInt64 * perThreadAllocSize)

theorem region_start (r : RDMARegionAllocator) (tid : r.Thread) :
    (r.getThreadLocalRegion tid).1.toNat = r.globalMr.toNat + tid.1.toNat * 524288000 := by
  have hroom := r.room
  have htid := UInt32.lt_iff_toNat_lt.mp tid.2
  simp only [getThreadLocalRegion, UInt64.toNat_add, UInt64.toNat_mul, UInt32.toNat_toUInt64,
    perThreadAllocSize_toNat]
  omega

theorem region_end (r : RDMARegionAllocator) (tid : r.Thread) :
    (r.getThreadLocalRegion tid).2.toNat = (r.getThreadLocalRegion tid).1.toNat + 524288000 := by
  have hroom := r.room
  have htid := UInt32.lt_iff_toNat_lt.mp tid.2
  have hnum := r.threadNum.toNat_lt
  have hnext : (tid.1 + 1).toNat = tid.1.toNat + 1 := by
    rw [UInt32.toNat_add]
    simp only [UInt32.reduceToNat]
    omega
  rw [region_start]
  simp only [getThreadLocalRegion, UInt64.toNat_add, UInt64.toNat_mul, UInt32.toNat_toUInt64,
    perThreadAllocSize_toNat, hnext]
  omega

end RDMARegionAllocator

structure RDMABufferAllocator where
  start : UInt64
  stop : UInt64
  curOffset : UInt64

namespace RDMABufferAllocator

def alloc (a : RDMABufferAllocator) (size : UInt64) : UInt64 × RDMABufferAllocator :=
  let curOffset := if a.stop < a.start + a.curOffset + size then 0 else a.curOffset
  (a.start + curOffset, { a with curOffset := curOffset + size })

structure Manages (a : RDMABufferAllocator) (cap : ℕ) : Prop where
  stop : a.stop.toNat = a.start.toNat + cap
  cursor : a.curOffset.toNat ≤ cap
  room : a.start.toNat + 2 * cap < 2 ^ 64

variable {a : RDMABufferAllocator} {cap : ℕ} {size : UInt64}

theorem Manages.exhausted_iff (h : a.Manages cap) (hs : size.toNat ≤ cap) :
    a.stop < a.start + a.curOffset + size ↔ cap < a.curOffset.toNat + size.toNat := by
  obtain ⟨hstop, hcur, hroom⟩ := h
  have hsum : (a.start + a.curOffset + size).toNat =
      a.start.toNat + a.curOffset.toNat + size.toNat := by
    simp only [UInt64.toNat_add]
    omega
  rw [UInt64.lt_iff_toNat_lt, hsum, hstop]
  omega

theorem Manages.alloc_cursor (h : a.Manages cap) (hs : size.toNat ≤ cap) :
    (if a.stop < a.start + a.curOffset + size then 0 else a.curOffset : UInt64).toNat =
      place cap a.curOffset.toNat size.toNat := by
  simp only [place, h.exhausted_iff hs]
  split_ifs <;> rfl

theorem Manages.alloc_ret (h : a.Manages cap) (hs : size.toNat ≤ cap) :
    (a.alloc size).1.toNat = a.start.toNat + place cap a.curOffset.toNat size.toNat := by
  have hle : place cap a.curOffset.toNat size.toNat + size.toNat ≤ cap := place_add_le hs
  have hroom := h.room
  rw [alloc, UInt64.toNat_add, h.alloc_cursor hs]
  omega

theorem Manages.alloc_next (h : a.Manages cap) (hs : size.toNat ≤ cap) :
    (a.alloc size).2.curOffset.toNat = place cap a.curOffset.toNat size.toNat + size.toNat := by
  have hle : place cap a.curOffset.toNat size.toNat + size.toNat ≤ cap := place_add_le hs
  have hroom := h.room
  rw [alloc, UInt64.toNat_add, h.alloc_cursor hs]
  omega

theorem Manages.alloc (h : a.Manages cap) (hs : size.toNat ≤ cap) : (a.alloc size).2.Manages cap := by
  refine ⟨h.stop, ?_, h.room⟩
  rw [h.alloc_next hs]
  exact place_add_le hs

end RDMABufferAllocator

structure Buffer (T : Type) where
  thread : T
  ret : UInt64
  size : UInt64

namespace Buffer

variable {T : Type}

def bytes (b : Buffer T) : Set ℕ := Set.Ico b.ret.toNat (b.ret.toNat + b.size.toNat)

def within (base : ℕ) (b : Buffer T) : ℕ × ℕ := (b.ret.toNat - base, b.size.toNat)

theorem bytes_disjoint {base : ℕ} {b b' : Buffer T} (hb : base ≤ b.ret.toNat) (hb' : base ≤ b'.ret.toNat)
    (h : Disjoint (block (b.within base)) (block (b'.within base))) : Disjoint b.bytes b'.bytes := by
  apply Set.disjoint_left.mpr
  intro x hx hx'
  refine Set.disjoint_left.mp h (?_ : x - base ∈ _) ?_
  · simp only [bytes, block, within, Set.mem_Ico] at hx ⊢
    omega
  · simp only [bytes, block, within, Set.mem_Ico] at hx' ⊢
    omega

end Buffer

section Threads

variable {T : Type}

def allocs (thread : T) : List UInt64 → RDMABufferAllocator → List (Buffer T)
  | [], _ => []
  | size :: sizes, a => ⟨thread, (a.alloc size).1, size⟩ :: allocs thread sizes (a.alloc size).2

theorem allocs_placed {cap : ℕ} {sizes : List UInt64} {a : RDMABufferAllocator} (thread : T)
    (h : a.Manages cap) (hs : ∀ size ∈ sizes, size.toNat ≤ cap) :
    (∀ b ∈ allocs thread sizes a, a.start.toNat ≤ b.ret.toNat) ∧
      Placed cap a.curOffset.toNat ((allocs thread sizes a).map (Buffer.within a.start.toNat)) := by
  induction sizes generalizing a with
  | nil => exact ⟨nofun, .nil⟩
  | cons size sizes ih =>
    obtain ⟨hsize, hrest⟩ := List.forall_mem_cons.mp hs
    obtain ⟨hstart, hplaced⟩ := ih (h.alloc hsize) hrest
    have hret := h.alloc_ret hsize
    rw [h.alloc_next hsize] at hplaced
    constructor
    · refine List.forall_mem_cons.mpr ⟨?_, hstart⟩
      rw [hret]
      exact Nat.le_add_right _ _
    · have hfirst : Buffer.within a.start.toNat ⟨thread, (a.alloc size).1, size⟩ =
          (place cap a.curOffset.toNat size.toNat, size.toNat) := by
        simp only [Buffer.within, hret, Nat.add_sub_cancel_left]
      rw [allocs, List.map_cons, hfirst]
      exact .cons hplaced

theorem allocs_inside {cap : ℕ} {sizes : List UInt64} {a : RDMABufferAllocator} (thread : T)
    (h : a.Manages cap) (hs : ∀ size ∈ sizes, size.toNat ≤ cap) :
    ∀ b ∈ allocs thread sizes a,
      a.start.toNat ≤ b.ret.toNat ∧ b.ret.toNat + b.size.toNat ≤ a.start.toNat + cap := by
  induction sizes generalizing a with
  | nil => simp [allocs]
  | cons size sizes ih =>
    obtain ⟨hsize, hrest⟩ := List.forall_mem_cons.mp hs
    refine List.forall_mem_cons.mpr ⟨?_, ih (h.alloc hsize) hrest⟩
    have hplace : place cap a.curOffset.toNat size.toNat + size.toNat ≤ cap := place_add_le hsize
    dsimp only
    rw [h.alloc_ret hsize]
    omega

variable [DecidableEq T]

def serve : List (T × UInt64) → (T → RDMABufferAllocator) → List (Buffer T)
  | [], _ => []
  | (thread, size) :: calls, allocators =>
    let (ret, a) := (allocators thread).alloc size
    ⟨thread, ret, size⟩ :: serve calls (Function.update allocators thread a)

theorem serve_calls (calls : List (T × UInt64)) (allocators : T → RDMABufferAllocator) :
    (serve calls allocators).map (fun b => (b.thread, b.size)) = calls := by
  induction calls generalizing allocators with
  | nil => rfl
  | cons call calls ih => rw [serve, List.map_cons, ih]

def buffersOf (thread : T) (buffers : List (Buffer T)) : List (Buffer T) :=
  buffers.filter fun b => b.thread = thread

theorem buffersOf_serve (calls : List (T × UInt64)) (allocators : T → RDMABufferAllocator) (t : T) :
    buffersOf t (serve calls allocators) =
      allocs t ((calls.filter fun c => c.1 = t).map Prod.snd) (allocators t) := by
  induction calls generalizing allocators with
  | nil => rfl
  | cons call calls ih =>
    obtain ⟨u, size⟩ := call
    have hrest := ih (Function.update allocators u ((allocators u).alloc size).2)
    rcases eq_or_ne u t with rfl | hne
    · rw [Function.update_self] at hrest
      simp only [buffersOf, serve, List.filter_cons, decide_true, if_true, List.map_cons, allocs]
      exact congrArg _ hrest
    · rw [Function.update_of_ne hne.symm] at hrest
      simp only [buffersOf, serve, List.filter_cons, hne, decide_false, Bool.false_eq_true, if_false]
      exact hrest

end Threads

namespace RDMARegionAllocator

variable (r : RDMARegionAllocator)

def run (calls : List (r.Thread × UInt64)) : List (Buffer r.Thread) :=
  serve calls fun tid => ⟨(r.getThreadLocalRegion tid).1, (r.getThreadLocalRegion tid).2, 0⟩

def InRegion (b : Buffer r.Thread) : Prop :=
  (r.getThreadLocalRegion b.thread).1.toNat ≤ b.ret.toNat ∧
    b.ret.toNat + b.size.toNat ≤ (r.getThreadLocalRegion b.thread).2.toNat

structure BuffersApart (bound : ℕ) (calls : List (r.Thread × UInt64)) (buffers : List (Buffer r.Thread)) :
    Prop where
  answers : buffers.map (fun b => (b.thread, b.size)) = calls
  region : ∀ b ∈ buffers, r.InRegion b
  registered : ∀ b ∈ buffers, r.globalMr.toNat ≤ b.ret.toNat ∧
    b.ret.toNat + b.size.toNat ≤ r.globalMr.toNat + r.threadNum.toNat * perThreadAllocSize.toNat
  threads : ∀ b ∈ buffers, ∀ b' ∈ buffers, b.thread ≠ b'.thread → Disjoint b.bytes b'.bytes
  window : ∀ tid pre b mid b' post, buffersOf tid buffers = pre ++ b :: (mid ++ b' :: post) →
    b.size.toNat + (mid.map fun x => x.size.toNat).sum + b'.size.toNat ≤ perThreadAllocSize.toNat - bound →
      Disjoint b.bytes b'.bytes

variable {r} {bound : ℕ} {calls : List (r.Thread × UInt64)}

theorem manages (tid : r.Thread) : RDMABufferAllocator.Manages
    ⟨(r.getThreadLocalRegion tid).1, (r.getThreadLocalRegion tid).2, 0⟩ 524288000 := by
  refine ⟨r.region_end tid, Nat.zero_le _, ?_⟩
  have hroom := r.room
  have htid := UInt32.lt_iff_toNat_lt.mp tid.2
  simp only [region_start]
  omega

theorem run_size_le (hs : ∀ c ∈ calls, c.2.toNat ≤ bound) : ∀ b ∈ r.run calls, b.size.toNat ≤ bound := by
  intro b hb
  have hcall := List.mem_map_of_mem (f := fun b : Buffer r.Thread => (b.thread, b.size)) hb
  rw [run, serve_calls] at hcall
  exact hs _ hcall

theorem run_placed (hs : ∀ c ∈ calls, c.2.toNat ≤ 524288000) (tid : r.Thread) :
    (∀ b ∈ buffersOf tid (r.run calls), (r.getThreadLocalRegion tid).1.toNat ≤ b.ret.toNat) ∧
      Placed 524288000 0
        ((buffersOf tid (r.run calls)).map (Buffer.within (r.getThreadLocalRegion tid).1.toNat)) := by
  rw [run, buffersOf_serve]
  apply allocs_placed tid (manages tid)
  intro size hsize
  obtain ⟨c, hc, rfl⟩ := List.mem_map.mp hsize
  exact hs c (List.mem_of_mem_filter hc)

theorem run_region (hs : ∀ c ∈ calls, c.2.toNat ≤ 524288000) {b : Buffer r.Thread} (hb : b ∈ r.run calls) :
    r.InRegion b := by
  have hmem : b ∈ buffersOf b.thread (r.run calls) := List.mem_filter.mpr ⟨hb, decide_eq_true rfl⟩
  rw [run, buffersOf_serve] at hmem
  rw [InRegion, region_end]
  apply allocs_inside b.thread (manages b.thread) _ b hmem
  intro size hsize
  obtain ⟨c, hc, rfl⟩ := List.mem_map.mp hsize
  exact hs c (List.mem_of_mem_filter hc)

theorem InRegion.registered {b : Buffer r.Thread} (h : r.InRegion b) : r.globalMr.toNat ≤ b.ret.toNat ∧
    b.ret.toNat + b.size.toNat ≤ r.globalMr.toNat + r.threadNum.toNat * perThreadAllocSize.toNat := by
  have htid := UInt32.lt_iff_toNat_lt.mp b.thread.2
  simp only [InRegion, region_end, region_start] at h
  rw [perThreadAllocSize_toNat]
  omega

theorem InRegion.disjoint {b b' : Buffer r.Thread} (h : r.InRegion b) (h' : r.InRegion b')
    (hne : b.thread ≠ b'.thread) : Disjoint b.bytes b'.bytes := by
  have hids : b.thread.1.toNat ≠ b'.thread.1.toNat :=
    fun heq => hne (Subtype.ext (UInt32.toNat_inj.mp heq))
  simp only [InRegion, region_end, region_start] at h h'
  apply Set.disjoint_left.mpr
  intro x hx hx'
  simp only [Buffer.bytes, Set.mem_Ico] at hx hx'
  omega

theorem run_window (hb : bound ≤ 524288000) (hs : ∀ c ∈ calls, c.2.toNat ≤ bound) {tid : r.Thread}
    {b b' : Buffer r.Thread} {pre mid post : List (Buffer r.Thread)}
    (h : buffersOf tid (r.run calls) = pre ++ b :: (mid ++ b' :: post))
    (hw : b.size.toNat + (mid.map fun x => x.size.toNat).sum + b'.size.toNat ≤ 524288000 - bound) :
    Disjoint b.bytes b'.bytes := by
  obtain ⟨hstart, hplaced⟩ := run_placed (fun c hc => (hs c hc).trans hb) tid
  have hsizes : ∀ x ∈ buffersOf tid (r.run calls), x.size.toNat ≤ bound :=
    fun x hx => run_size_le hs x (List.mem_of_mem_filter hx)
  rw [h] at hstart hplaced hsizes
  apply Buffer.bytes_disjoint (hstart b (by simp)) (hstart b' (by simp))
  simp only [List.map_append, List.map_cons] at hplaced
  apply hplaced.window
  · simpa only [← List.map_append, ← List.map_cons] using List.forall_mem_map.mpr hsizes
  · simp only [List.map_map]
    exact (Nat.le_sub_iff_add_le hb).mp hw

variable (r)

theorem run_buffersApart (hb : bound ≤ perThreadAllocSize.toNat) (calls : List (r.Thread × UInt64))
    (hs : ∀ c ∈ calls, c.2.toNat ≤ bound) : r.BuffersApart bound calls (r.run calls) := by
  have hcap : ∀ c ∈ calls, c.2.toNat ≤ 524288000 := fun c hc => (hs c hc).trans hb
  refine ⟨serve_calls _ _, fun b => run_region hcap, ?_, ?_, ?_⟩
  · intro b hmem
    exact (run_region hcap hmem).registered
  · intro b hmem b' hmem'
    exact (run_region hcap hmem).disjoint (run_region hcap hmem')
  · intro tid pre b mid b' post h hw
    exact run_window hb hs h hw

def twoThreads : RDMARegionAllocator := ⟨4096, 2, by decide⟩

def wrappingCalls : List (twoThreads.Thread × UInt64) :=
  [(⟨0, by decide⟩, 314572800), (⟨1, by decide⟩, 104857600), (⟨0, by decide⟩, 104857600),
    (⟨0, by decide⟩, 104857600), (⟨0, by decide⟩, 104857600)]

theorem run_buffersApart_after_wrap :
    (twoThreads.run wrappingCalls).map (fun b => b.ret.toNat) =
        [4096, 524292096, 314576896, 419434496, 4096] ∧
      twoThreads.BuffersApart 314572800 wrappingCalls (twoThreads.run wrappingCalls) :=
  ⟨by decide +kernel, run_buffersApart twoThreads (by decide) wrappingCalls (by simp [wrappingCalls])⟩

end RDMARegionAllocator

end MetadataService.Allocator
