import MetadataService.HashStore

namespace MetadataService.MemStore

open ByteMemory LinkedChain Loops

def slots (ns : List UInt64) : List UInt64 := ns.flatMap slotsOf

def lookup (m : Memory) (ns : List UInt64) (key : UInt64) : Option UInt64 :=
  (slots ns).find? fun slot => holds key (itemAt m slot)

def firstFree (m : Memory) (ns : List UInt64) : Option UInt64 :=
  (slots ns).find? fun slot => isFree (itemAt m slot)

variable {s : HashStore} {m : Memory} {key : UInt64} {ns : List UInt64} {fuel : ℕ}

theorem findSome_findSlot (m : Memory) (test : DataItem → Bool) (ns : List UInt64) :
    ns.findSome? (findSlot m test) = (slots ns).find? fun slot => test (itemAt m slot) := by
  rw [slots, List.find?_flatMap]
  rfl

theorem findSome_map_some {α β : Type} (f : α → Option β) (xs : List α) :
    (xs.findSome? fun x => (f x).map some).getD none = xs.findSome? f := by
  induction xs with
  | nil => rfl
  | cons x xs ih =>
    rw [List.findSome?_cons, List.findSome?_cons]
    cases f x with
    | none => exact ih
    | some y => rfl

theorem search_run {a : UInt64} (h : Chain (nextOf m) 0 a ns) (hf : ns.length < fuel) :
    timed (run (searchBody m key) fuel a) = .ok (lookup m ns key) := by
  have hw : run (searchBody m key) (ns.length + 1) a = _ := walk_run h
  have hr := run_stable hw hf
  rw [findSome_map_some, findSome_findSlot] at hr
  rw [hr]
  rfl

theorem free_run {a : UInt64} (h : Chain (nextOf m) 0 a ns) (hne : ns ≠ []) (hf : ns.length ≤ fuel) :
    timed (run (freeBody m) fuel a) = .ok (match firstFree m ns with
      | some p => .inl p
      | none => .inr (ns.getLast hne)) := by
  have hr := run_stable (tail_run (f := findSlot m isFree) h hne) hf
  rw [findSome_findSlot] at hr
  rw [freeBody, hr, firstFree]
  cases (slots ns).find? fun slot => isFree (itemAt m slot) <;> rfl

theorem localGet_eq (h : Chain (nextOf m) 0 (s.bucket (s.getHash key)) ns) (hf : ns.length < fuel) :
    s.localGet m key fuel = .ok (lookup m ns key) :=
  search_run h hf

theorem localPut_eq (param : MemStoreReserveParam) (d : DataItem)
    (h : Chain (nextOf m) 0 (s.bucket (s.getHash key)) ns) (hf : ns.length < fuel) :
    s.localPut m param key d fuel = match lookup m ns key with
      | some p => .ok ⟨p, s, param, storeItem m p.toNat d⟩
      | none => s.localInsert m param key d fuel := by
  rw [HashStore.localPut, localGet_eq h hf]
  cases lookup m ns key <;> rfl

theorem localDelete_eq (h : Chain (nextOf m) 0 (s.bucket (s.getHash key)) ns) (hne : ns ≠ [])
    (hf : ns.length ≤ fuel) :
    s.localDelete m key fuel = .ok (match lookup m ns key with
      | some p => (true, setValid m p.toNat 0)
      | none => (false, m)) := by
  obtain ⟨tail, rfl, ht⟩ := h.eq_cons hne
  have hl : lookup m (s.bucket (s.getHash key) :: tail) key =
      (findSlot m (holds key) (s.bucket (s.getHash key))).or (lookup m tail key) := by
    simp only [lookup, slots, List.flatMap_cons, List.find?_append]
    rfl
  rw [hl, HashStore.localDelete]
  cases findSlot m (holds key) (s.bucket (s.getHash key)) with
  | some p => rfl
  | none =>
    simp only [Option.none_or]
    rw [search_run ht (by simp only [List.length_cons] at hf; omega)]
    cases lookup m tail key <;> rfl

theorem localInsert_reuse (param : MemStoreReserveParam) (d : DataItem) {p : UInt64}
    (h : Chain (nextOf m) 0 (s.bucket (s.getHash key)) ns) (hne : ns ≠ []) (hf : ns.length ≤ fuel)
    (hp : firstFree m ns = some p) :
    s.localInsert m param key d fuel =
      .ok ⟨p, s, param, setValid (storeItem m p.toNat d) p.toNat 1⟩ := by
  rw [HashStore.localInsert, free_run h hne hf, hp]
  rfl

theorem localInsert_grow (param : MemStoreReserveParam) (d : DataItem)
    (h : Chain (nextOf m) 0 (s.bucket (s.getHash key)) ns) (hne : ns ≠ []) (hf : ns.length ≤ fuel)
    (hp : firstFree m ns = none) :
    s.localInsert m param key d fuel =
      if param.memStoreReserve + param.memStoreReserveOffset.toUInt64 ≤ param.memStoreEnd then
        let new := param.memStoreReserve + param.memStoreReserveOffset.toUInt64
        .ok ⟨slotPtr new 0, { s with nodeNum := s.nodeNum + 1 },
          { param with memStoreReserveOffset :=
              (param.memStoreReserveOffset.toUInt64 + 15848).toInt64 },
          linkNode m (ns.getLast hne) new d⟩
      else .error .assertion := by
  have hlast : ns.getLast hne ≠ 0 := h.ne_null (List.getLast_mem hne)
  rw [HashStore.localInsert, free_run h hne hf, hp]
  split_ifs with hr
  · simp only [bind, Except.bind, require, if_pos hr, if_neg hlast]
    rfl
  · simp only [bind, Except.bind, require, if_neg hr]

section Fuel

variable {fuel' : ℕ}

theorem timed_stable {σ ρ : Type} {body : σ → σ ⊕ ρ} {a : σ} {r : ρ}
    (h : timed (run body fuel a) = .ok r) (hle : fuel ≤ fuel') :
    timed (run body fuel' a) = .ok r := by
  cases hr : run body fuel a with
  | inl t => rw [hr] at h; cases h
  | inr q => rw [hr] at h; rw [run_stable hr hle]; exact h

theorem localInsert_stable {param : MemStoreReserveParam} {d : DataItem} {r : Inserted}
    (h : s.localInsert m param key d fuel = .ok r) (hle : fuel ≤ fuel') :
    s.localInsert m param key d fuel' = .ok r := by
  unfold HashStore.localInsert at h ⊢
  cases hr : timed (run (freeBody m) fuel (s.bucket (s.getHash key))) with
  | error e => rw [hr] at h; cases h
  | ok q => rw [hr] at h; rw [timed_stable hr hle]; exact h

theorem localPut_stable {param : MemStoreReserveParam} {d : DataItem} {r : Inserted}
    (h : s.localPut m param key d fuel = .ok r) (hle : fuel ≤ fuel') :
    s.localPut m param key d fuel' = .ok r := by
  unfold HashStore.localPut HashStore.localGet at h ⊢
  cases hr : timed (run (searchBody m key) fuel (s.bucket (s.getHash key))) with
  | error e => rw [hr] at h; cases h
  | ok q =>
    rw [hr] at h
    rw [timed_stable hr hle]
    cases q with
    | some p => exact h
    | none => exact localInsert_stable h hle

theorem localDelete_stable {r : Bool × Memory} (h : s.localDelete m key fuel = .ok r)
    (hle : fuel ≤ fuel') : s.localDelete m key fuel' = .ok r := by
  unfold HashStore.localDelete at h ⊢
  cases hs : findSlot m (holds key) (s.bucket (s.getHash key)) with
  | some p => simpa only [hs] using h
  | none =>
    simp only [hs] at h ⊢
    cases hr : timed (run (searchBody m key) fuel (nextOf m (s.bucket (s.getHash key)))) with
    | error e => rw [hr] at h; cases h
    | ok q => rw [hr] at h; rw [timed_stable hr hle]; exact h

end Fuel

end MetadataService.MemStore
