import MetadataService.ByteMemory

namespace MetadataService.MemStore

open ByteMemory

structure DataItem where
  tableId : UInt64
  valueSize : UInt64
  key : UInt64
  remoteOffset : Int64
  version : UInt64
  lock : UInt64
  value : Vector UInt8 664
  valid : UInt8
  userInsert : UInt8
deriving DecidableEq

def loadItem (m : Memory) (p : ℕ) : DataItem where
  tableId := readWord m p
  valueSize := readWord m (p + 8)
  key := readWord m (p + 16)
  remoteOffset := (readWord m (p + 24)).toInt64
  version := readWord m (p + 32)
  lock := readWord m (p + 40)
  value := readVector m (p + 48) 664
  valid := m (p + 712)
  userInsert := m (p + 713)

def setValid (m : Memory) (p : ℕ) (v : UInt8) : Memory := writeByte m (p + 712) v

def setRemoteOffset (m : Memory) (p : ℕ) (v : Int64) : Memory := writeWord m (p + 24) v.toUInt64

def storeItem (m : Memory) (p : ℕ) (d : DataItem) : Memory :=
  let m := writeWord m p d.tableId
  let m := writeWord m (p + 8) d.valueSize
  let m := writeWord m (p + 16) d.key
  let m := setRemoteOffset m p d.remoteOffset
  let m := writeWord m (p + 32) d.version
  let m := writeWord m (p + 40) d.lock
  let m := writeVector m (p + 48) d.value
  let m := setValid m p d.valid
  writeByte m (p + 713) d.userInsert

/-- The constructor for data loaded by the server; the bytes behind the loaded ones are whatever
the stack held. -/
def ofLoad (tableId : UInt64) (val : List UInt8) (key : UInt64) (stack : Vector UInt8 664) :
    DataItem where
  tableId := tableId
  valueSize := UInt64.ofNat val.length
  key := key
  remoteOffset := 0
  version := 0
  lock := 0
  value := Vector.ofFn fun i => val.getD i stack[i]
  valid := 1
  userInsert := 0

def ofFetch (tableId key : UInt64) (heap : Vector UInt8 664) : DataItem where
  tableId := tableId
  valueSize := 0
  key := key
  remoteOffset := 0
  version := 0
  lock := 0
  value := heap
  valid := 1
  userInsert := 0

def getRemoteLockAddr (d : DataItem) : UInt64 := d.remoteOffset.toUInt64 + (8 + 8 + 8 + 8 + 8)

def getRemoteVersionAddr (d : DataItem) : UInt64 := d.remoteOffset.toUInt64 + (8 + 8 + 8 + 8)

theorem setValid_outside (m : Memory) (p : ℕ) (v : UInt8) :
    SameOutside p 714 m (setValid m p v) :=
  (writeByte_outside m _ v).widen (by omega) (by omega)

theorem setRemoteOffset_outside (m : Memory) (p : ℕ) (v : Int64) :
    SameOutside p 714 m (setRemoteOffset m p v) :=
  (writeWord_outside m _ _).widen (by omega) (by omega)

theorem storeItem_outside (m : Memory) (p : ℕ) (d : DataItem) :
    SameOutside p 714 m (storeItem m p d) := by
  have word (m : Memory) (k : ℕ) (v : UInt64) (hk : k + 8 ≤ 714) :
      SameOutside p 714 m (writeWord m (p + k) v) :=
    (writeWord_outside m _ v).widen (by omega) (by omega)
  have value (m : Memory) : SameOutside p 714 m (writeVector m (p + 48) d.value) :=
    (writeVector_outside m _ _).widen (by omega) (by omega)
  have flag (m : Memory) : SameOutside p 714 m (writeByte m (p + 713) d.userInsert) :=
    (writeByte_outside m _ _).widen (by omega) (by omega)
  apply SameOutside.trans (word m 0 _ (by omega))
  apply SameOutside.trans (word _ 8 _ (by omega))
  apply SameOutside.trans (word _ 16 _ (by omega))
  apply SameOutside.trans (setRemoteOffset_outside _ p _)
  apply SameOutside.trans (word _ 32 _ (by omega))
  apply SameOutside.trans (word _ 40 _ (by omega))
  apply SameOutside.trans (value _)
  apply SameOutside.trans (setValid_outside _ p _)
  exact flag _

theorem loadItem_congr {m m' : Memory} {p : ℕ} (h : ∀ i < 714, m' (p + i) = m (p + i)) :
    loadItem m' p = loadItem m p := by
  have part (k i : ℕ) (hk : k + i < 714) : m' (p + k + i) = m (p + k + i) := by
    simpa only [Nat.add_assoc] using h (k + i) hk
  have word (k : ℕ) (hk : k + 8 ≤ 714) : readWord m' (p + k) = readWord m (p + k) :=
    readWord_congr fun i hi => part k i (by omega)
  have value : readVector m' (p + 48) 664 = readVector m (p + 48) 664 :=
    readVector_congr fun i hi => part 48 i (by omega)
  have first : readWord m' p = readWord m p := word 0 (by omega)
  unfold loadItem
  rw [first, word 8 (by omega), word 16 (by omega), word 24 (by omega), word 32 (by omega),
    word 40 (by omega), value, h 712 (by omega), h 713 (by omega)]

theorem loadItem_frame {m m' : Memory} {a n p : ℕ} (h : SameOutside a n m m')
    (hd : p + 714 ≤ a ∨ a + n ≤ p) : loadItem m' p = loadItem m p :=
  loadItem_congr fun i hi => h _ (by omega)

theorem loadItem_shift (m : Memory) (p : ℕ) : loadItem (fun a => m (p + a)) 0 = loadItem m p := by
  simp only [loadItem, readWord, readNat, readVector, Nat.add_assoc, Nat.zero_add]
  rfl

theorem loadItem_setValid (m : Memory) (p : ℕ) (v : UInt8) :
    loadItem (setValid m p v) p = { loadItem m p with valid := v } := by
  simp (disch := omega) only [loadItem, setValid, readWord_writeByte_apart,
    readVector_writeByte_apart, writeByte_apply_apart, writeByte_self]

theorem loadItem_setRemoteOffset (m : Memory) (p : ℕ) (v : Int64) :
    loadItem (setRemoteOffset m p v) p = { loadItem m p with remoteOffset := v } := by
  simp (disch := omega) only [loadItem, setRemoteOffset, readWord_writeWord_apart,
    readVector_writeWord_apart, writeWord_apply_apart, readWord_writeWord, Int64.toInt64_toUInt64]

theorem loadItem_storeItem (m : Memory) (p : ℕ) (d : DataItem) : loadItem (storeItem m p d) p = d := by
  simp (disch := omega) only [loadItem, storeItem, setValid, setRemoteOffset,
    readWord_writeByte_apart, readWord_writeVector_apart, readWord_writeWord_apart,
    readVector_writeByte_apart, writeByte_apply_apart, readVector_writeVector, writeByte_self,
    readWord_writeWord, Int64.toInt64_toUInt64]

theorem loadItem_write_lock (m : Memory) (p : ℕ) (v : UInt64) :
    loadItem (writeWord m (p + 40) v) p = { loadItem m p with lock := v } := by
  simp (disch := omega) only [loadItem, readWord_writeWord_apart, readVector_writeWord_apart,
    writeWord_apply_apart, readWord_writeWord]

theorem loadItem_write_version (m : Memory) (p : ℕ) (v : UInt64) :
    loadItem (writeWord m (p + 32) v) p = { loadItem m p with version := v } := by
  simp (disch := omega) only [loadItem, readWord_writeWord_apart, readVector_writeWord_apart,
    writeWord_apply_apart, readWord_writeWord]

end MetadataService.MemStore
