import MetadataService.MetaExchange
import MetadataService.Tracing

namespace MetadataService.MetaExchange

open ByteMemory MemStore Tracing

inductive Access
  | read (off len : ℕ)
  | index (tableId : UInt64)
deriving DecidableEq

abbrev Decoding (α : Type) := Traced Crash Access α

namespace Decoding

def readAt {α : Type} (off len : ℕ) (a : α) : Decoding α :=
  Traced.touch (.read off len) (.ok a)

def pushBackup (mgr : MetaManager) (machineId : Int32) (x : HashMeta) : Decoding MetaManager :=
  Traced.touch (.index x.tableId) (mgr.addBackup machineId x)

def primaryLoop (buf : Memory) (machineId : Int32) : ℕ → ℕ → MetaManager → Decoding MetaManager
  | 0, _, mgr => pure mgr
  | k + 1, off, mgr => do
    let x ← readAt off 40 (readMeta buf off)
    primaryLoop buf machineId k (off + 40) (mgr.addPrimary machineId x)

def backupLoop (buf : Memory) (machineId : Int32) : ℕ → ℕ → MetaManager → Decoding MetaManager
  | 0, _, mgr => pure mgr
  | k + 1, off, mgr => do
    let x ← readAt off 40 (readMeta buf off)
    let mgr ← pushBackup mgr machineId x
    backupLoop buf machineId k (off + 40) mgr

def install (buf : Memory) (machineId : Int32) (primaryMetaNum backupMetaNum : ℕ) (mgr : MetaManager) :
    Decoding (Int32 × MetaManager) := do
  let mgr ← primaryLoop buf machineId primaryMetaNum 20 mgr
  let mgr ← backupLoop buf machineId backupMetaNum (20 + 40 * primaryMetaNum) mgr
  return (machineId, mgr)

def decode (buf : Memory) (primaryMetaNum backupMetaNum : UInt64) (machineId : Int32) (mgr : MetaManager) :
    Decoding (Int32 × MetaManager) :=
  if 100 ≤ machineId then Traced.fail .fatal
  else
    let eof := (20 + 40 * (primaryMetaNum + backupMetaNum)).toNat
    readAt eof 8 (readWord buf eof) >>= fun mark =>
      if mark = memStoreMetaEnd then install buf machineId primaryMetaNum.toNat backupMetaNum.toNat mgr
      else return (-1, mgr)

def getMemStoreMeta (buf : Memory) (mgr : MetaManager) : Decoding (Int32 × MetaManager) := do
  let primaryMetaNum ← readAt 0 8 (readWord buf 0)
  let backupMetaNum ← readAt 8 8 (readWord buf 8)
  let remoteMachineId ← readAt 16 4 (readInt buf 16)
  decode buf primaryMetaNum backupMetaNum remoteMachineId mgr

variable {buf : Memory} {id : Int32} {k off : ℕ} {mgr : MetaManager}

theorem readAt_ok {α : Type} {len : ℕ} {a x : α} : (readAt off len a).result = .ok x ↔ a = x := by
  rw [readAt, Traced.touch_result, Except.ok.injEq]

theorem readAt_bind {α β : Type} {len : ℕ} (a : α) (f : α → Decoding β) :
    readAt off len a >>= f = ⟨.read off len :: (f a).log, (f a).result⟩ :=
  Traced.bind_of_ok rfl f

theorem primaryLoop_result (k off : ℕ) (mgr : MetaManager) :
    (primaryLoop buf id k off mgr).result = .ok (MetaExchange.primaryLoop buf id k off mgr) := by
  induction k generalizing off mgr with
  | zero => rfl
  | succ k ih =>
    rw [primaryLoop, readAt_bind]
    exact ih _ _

theorem backupLoop_result (k off : ℕ) (mgr : MetaManager) :
    (backupLoop buf id k off mgr).result = MetaExchange.backupLoop buf id k off mgr := by
  induction k generalizing off mgr with
  | zero => rfl
  | succ k ih =>
    rw [backupLoop, readAt_bind]
    simp [MetaExchange.backupLoop, pushBackup, ih]

theorem install_result (p b : ℕ) (mgr : MetaManager) :
    (install buf id p b mgr).result = do
      let mgr ← MetaExchange.backupLoop buf id b (20 + 40 * p) (MetaExchange.primaryLoop buf id p 20 mgr)
      return (id, mgr) := by
  rw [install, Traced.bind_of_ok (primaryLoop_result p 20 mgr)]
  simp [backupLoop_result]
  rfl

theorem getMemStoreMeta_eq (buf : Memory) (mgr : MetaManager) :
    getMemStoreMeta buf mgr =
      let body := decode buf (readWord buf 0) (readWord buf 8) (readInt buf 16) mgr
      ⟨.read 0 8 :: .read 8 8 :: .read 16 4 :: body.log, body.result⟩ := by
  rw [getMemStoreMeta, readAt_bind, readAt_bind, readAt_bind]

theorem getMemStoreMeta_result (buf : Memory) (mgr : MetaManager) :
    (getMemStoreMeta buf mgr).result = MetaExchange.getMemStoreMeta (some buf) mgr := by
  rw [getMemStoreMeta_eq]
  simp only [decode, MetaExchange.getMemStoreMeta]
  by_cases hid : 100 ≤ readInt buf 16
  · rw [if_pos hid, if_pos hid]
    rfl
  · rw [if_neg hid, if_neg hid]
    generalize (20 + 40 * (readWord buf 0 + readWord buf 8) : UInt64).toNat = eof
    rw [readAt_bind]
    by_cases hmark : readWord buf eof = memStoreMetaEnd
    · rw [if_pos hmark, if_pos hmark, install_result]
    · rw [if_neg hmark, if_neg hmark]
      rfl

end Decoding

def announced (buf : Memory) : ℕ := 20 + 40 * ((readWord buf 0).toNat + (readWord buf 8).toNat) + 8

def markAt (buf : Memory) : ℕ := (20 + 40 * (readWord buf 0 + readWord buf 8) : UInt64).toNat

def Access.Within (retlen : ℕ) : Access → Prop
  | .read off len => off + len ≤ retlen
  | .index _ => True

structure ReadsReceived (buf : Memory) (retlen : ℕ) (mgr : MetaManager) : Prop where
  within : ∀ a ∈ (Decoding.getMemStoreMeta buf mgr).log, a.Within retlen
  same : ∀ buf', (∀ a < retlen, buf' a = buf a) →
    getMemStoreMeta (some buf') mgr = getMemStoreMeta (some buf) mgr
  rejects : retlen < announced buf → getMemStoreMeta (some buf) mgr = .ok (-1, mgr)

/-- The whole announced message has been received; or its length wraps around, and there is no end mark
where it then should be. -/
def Complete (buf : Memory) (retlen : ℕ) : Prop :=
  20 ≤ retlen ∧ (announced buf ≤ retlen ∨
    readInt buf 16 < 100 ∧ markAt buf + 8 ≤ retlen ∧ readWord buf (markAt buf) ≠ memStoreMetaEnd)

theorem markAt_eq {buf : Memory} (h : announced buf < 2 ^ 64) : markAt buf + 8 = announced buf := by
  unfold markAt announced at *
  have : (20 + 40 * (readWord buf 0 + readWord buf 8) : UInt64).toNat =
      20 + 40 * ((readWord buf 0).toNat + (readWord buf 8).toNat) := by
    simp only [UInt64.toNat_add, UInt64.toNat_mul, UInt64.reduceToNat]
    omega
  rw [this]

namespace Decoding

variable {buf : Memory} {id : Int32} {k off : ℕ} {mgr : MetaManager}

theorem primaryLoop_within {R : ℕ} (h : off + 40 * k ≤ R) :
    ∀ a ∈ (primaryLoop buf id k off mgr).log, a.Within R := by
  induction k generalizing off mgr with
  | zero => simp [primaryLoop]
  | succ k ih =>
    rw [primaryLoop, Traced.forall_bind_log]
    refine ⟨?_, fun x _ => ih (by omega)⟩
    simp only [readAt, Traced.touch_log, List.mem_singleton, forall_eq, Access.Within]
    omega

theorem backupLoop_within {R : ℕ} (h : off + 40 * k ≤ R) :
    ∀ a ∈ (backupLoop buf id k off mgr).log, a.Within R := by
  induction k generalizing off mgr with
  | zero => simp [backupLoop]
  | succ k ih =>
    rw [backupLoop, Traced.forall_bind_log]
    refine ⟨?_, fun x _ => ?_⟩
    · simp only [readAt, Traced.touch_log, List.mem_singleton, forall_eq, Access.Within]
      omega
    · rw [Traced.forall_bind_log]
      refine ⟨?_, fun x _ => ih (by omega)⟩
      simp [pushBackup, Access.Within]

theorem install_within {p b R : ℕ} (h : 20 + 40 * (p + b) ≤ R) :
    ∀ a ∈ (install buf id p b mgr).log, a.Within R := by
  rw [install, Traced.forall_bind_log]
  refine ⟨primaryLoop_within (by omega), fun mgr _ => ?_⟩
  rw [Traced.forall_bind_log]
  exact ⟨backupLoop_within (by omega), by simp⟩

theorem primaryLoop_reads {R : ℕ} (h : ∀ a ∈ (primaryLoop buf id k off mgr).log, a.Within R) (hk : 0 < k) :
    off + 40 * k ≤ R := by
  induction k generalizing off mgr with
  | zero => omega
  | succ k ih =>
    rw [primaryLoop, readAt_bind, List.forall_mem_cons] at h
    obtain ⟨hread, hrest⟩ := h
    rcases Nat.eq_zero_or_pos k with rfl | hpos
    · exact hread
    · have := ih hrest hpos
      omega

theorem backupLoop_reads {R : ℕ} {mgr' : MetaManager}
    (hres : (backupLoop buf id k off mgr).result = .ok mgr')
    (h : ∀ a ∈ (backupLoop buf id k off mgr).log, a.Within R) (hk : 0 < k) : off + 40 * k ≤ R := by
  induction k generalizing off mgr with
  | zero => omega
  | succ k ih =>
    rw [backupLoop, readAt_bind, List.forall_mem_cons] at h
    obtain ⟨hread, hrest⟩ := h
    simp only [backupLoop, Traced.bind_result, bind_ok, readAt_ok, exists_eq_left'] at hres
    obtain ⟨mgr₁, hpush, hres⟩ := hres
    rcases Nat.eq_zero_or_pos k with rfl | hpos
    · exact hread
    · have := ih hres ((Traced.forall_bind_log.mp hrest).2 mgr₁ hpush) hpos
      omega

theorem install_reads {p b R : ℕ} {r : Int32 × MetaManager} (hR : 20 ≤ R)
    (hres : (install buf id p b mgr).result = .ok r)
    (h : ∀ a ∈ (install buf id p b mgr).log, a.Within R) : 20 + 40 * (p + b) ≤ R := by
  obtain ⟨hp, hrest⟩ := Traced.forall_bind_log.mp h
  obtain ⟨hb, -⟩ := Traced.forall_bind_log.mp (hrest _ (primaryLoop_result p 20 mgr))
  rw [install_result] at hres
  obtain ⟨mgr₂, hback, -⟩ := bind_ok.mp hres
  rw [← backupLoop_result] at hback
  rcases Nat.eq_zero_or_pos b with rfl | hpos
  · rcases Nat.eq_zero_or_pos p with rfl | hpos
    · exact hR
    · exact primaryLoop_reads hp hpos
  · have := backupLoop_reads hback hb hpos
    omega

def afterMark (buf : Memory) (mgr : MetaManager) (mark : UInt64) : Decoding (Int32 × MetaManager) :=
  if mark = memStoreMetaEnd then
    install buf (readInt buf 16) (readWord buf 0).toNat (readWord buf 8).toNat mgr
  else return (-1, mgr)

theorem decode_eq (buf : Memory) (mgr : MetaManager) :
    decode buf (readWord buf 0) (readWord buf 8) (readInt buf 16) mgr =
      if 100 ≤ readInt buf 16 then Traced.fail .fatal
      else readAt (markAt buf) 8 (readWord buf (markAt buf)) >>= afterMark buf mgr := by
  unfold decode markAt afterMark
  rfl

def Same (buf buf' : Memory) : Access → Prop
  | .read off len => ∀ i < len, buf' (off + i) = buf (off + i)
  | .index _ => True

section Same

variable {buf' : Memory}

theorem readAt_same {α : Type} {len : ℕ} {a : α} (h : ∀ e ∈ (readAt off len a).log, Same buf buf' e) :
    ∀ i < len, buf' (off + i) = buf (off + i) :=
  h (.read off len) List.mem_cons_self

theorem readMeta_congr (h : ∀ i < 40, buf' (off + i) = buf (off + i)) :
    readMeta buf' off = readMeta buf off := by
  have word : ∀ k ≤ 32, readWord buf' (off + k) = readWord buf (off + k) := by
    intro k hk
    apply readWord_congr
    intro i hi
    rw [Nat.add_assoc]
    exact h (k + i) (by omega)
  simp only [readMeta, word 8 (by omega), word 16 (by omega), word 24 (by omega), word 32 (by omega),
    show readWord buf' off = readWord buf off from word 0 (by omega)]

theorem primaryLoop_congr (h : ∀ e ∈ (primaryLoop buf id k off mgr).log, Same buf buf' e) :
    primaryLoop buf' id k off mgr = primaryLoop buf id k off mgr := by
  induction k generalizing off mgr with
  | zero => rfl
  | succ k ih =>
    obtain ⟨hread, hrest⟩ := Traced.forall_bind_log.mp h
    rw [primaryLoop, primaryLoop, readMeta_congr (readAt_same hread)]
    apply Traced.bind_congr
    intro x hx
    exact ih (hrest x hx)

theorem backupLoop_congr (h : ∀ e ∈ (backupLoop buf id k off mgr).log, Same buf buf' e) :
    backupLoop buf' id k off mgr = backupLoop buf id k off mgr := by
  induction k generalizing off mgr with
  | zero => rfl
  | succ k ih =>
    obtain ⟨hread, hrest⟩ := Traced.forall_bind_log.mp h
    rw [backupLoop, backupLoop, readMeta_congr (readAt_same hread)]
    apply Traced.bind_congr
    intro x hx
    apply Traced.bind_congr
    intro mgr₁ hmgr
    exact ih ((Traced.forall_bind_log.mp (hrest x hx)).2 mgr₁ hmgr)

theorem install_congr {p b : ℕ} (h : ∀ e ∈ (install buf id p b mgr).log, Same buf buf' e) :
    install buf' id p b mgr = install buf id p b mgr := by
  obtain ⟨hp, hrest⟩ := Traced.forall_bind_log.mp h
  rw [install, install, primaryLoop_congr hp]
  apply Traced.bind_congr
  intro mgr₁ hmgr
  rw [backupLoop_congr (Traced.forall_bind_log.mp (hrest mgr₁ hmgr)).1]

theorem decode_congr {p b : UInt64} (h : ∀ e ∈ (decode buf p b id mgr).log, Same buf buf' e) :
    decode buf' p b id mgr = decode buf p b id mgr := by
  unfold decode at h ⊢
  split_ifs at h ⊢
  · rfl
  · obtain ⟨hmark, hrest⟩ := Traced.forall_bind_log.mp h
    dsimp only
    rw [readWord_congr (readAt_same hmark)]
    apply Traced.bind_congr
    intro mark hres
    have hlog := hrest mark hres
    split_ifs at hlog ⊢
    · exact install_congr hlog
    · rfl

theorem getMemStoreMeta_congr (h : ∀ e ∈ (getMemStoreMeta buf mgr).log, Same buf buf' e) :
    getMemStoreMeta buf' mgr = getMemStoreMeta buf mgr := by
  rw [getMemStoreMeta_eq] at h
  simp only [List.forall_mem_cons] at h
  obtain ⟨hp, hb, hid, hbody⟩ := h
  rw [getMemStoreMeta_eq, getMemStoreMeta_eq, readWord_congr hp, readWord_congr hb,
    show readInt buf' 16 = readInt buf 16 by rw [readInt, readNat_congr hid, readInt], decode_congr hbody]

theorem Same.of_within {R : ℕ} (hb : ∀ a < R, buf' a = buf a) {e : Access} (h : e.Within R) :
    Same buf buf' e := by
  cases e with
  | read off len =>
    have hle : off + len ≤ R := h
    exact fun i hi => hb _ (by omega)
  | index t => trivial

end Same

theorem forall_log_iff {P : Access → Prop} : (∀ a ∈ (getMemStoreMeta buf mgr).log, P a) ↔
    (P (.read 0 8) ∧ P (.read 8 8) ∧ P (.read 16 4)) ∧
      (readInt buf 16 < 100 → P (.read (markAt buf) 8) ∧
        ∀ a ∈ (afterMark buf mgr (readWord buf (markAt buf))).log, P a) := by
  rw [getMemStoreMeta_eq, decode_eq, ← Int32.not_le]
  simp only [List.forall_mem_cons, and_assoc]
  refine and_congr_right' (and_congr_right' (and_congr_right' ?_))
  split_ifs with hid
  · exact iff_of_true (by simp) (absurd hid)
  · rw [readAt_bind, List.forall_mem_cons, imp_iff_right hid]

theorem within_iff {R : ℕ} : (∀ a ∈ (getMemStoreMeta buf mgr).log, a.Within R) ↔ 20 ≤ R ∧
    (readInt buf 16 < 100 → markAt buf + 8 ≤ R ∧
      ∀ a ∈ (afterMark buf mgr (readWord buf (markAt buf))).log, a.Within R) := by
  rw [forall_log_iff]
  refine and_congr_left' ?_
  simp only [Access.Within]
  omega

theorem result_ok_iff {r : Int32 × MetaManager} :
    MetaExchange.getMemStoreMeta (some buf) mgr = .ok r ↔ readInt buf 16 < 100 ∧
      (afterMark buf mgr (readWord buf (markAt buf))).result = .ok r := by
  rw [← getMemStoreMeta_result, getMemStoreMeta_eq, decode_eq, ← Int32.not_le]
  dsimp only
  split_ifs with hid
  · exact iff_of_false (nomatch ·) fun h => h.1 hid
  · rw [readAt_bind, and_iff_right hid]

end Decoding

theorem ReadsReceived.of_within {buf : Memory} {retlen : ℕ} {mgr : MetaManager}
    (hwithin : ∀ a ∈ (Decoding.getMemStoreMeta buf mgr).log, a.Within retlen)
    (hrejects : retlen < announced buf → getMemStoreMeta (some buf) mgr = .ok (-1, mgr)) :
    ReadsReceived buf retlen mgr := by
  refine ⟨hwithin, ?_, hrejects⟩
  intro buf' hb
  rw [← Decoding.getMemStoreMeta_result, ← Decoding.getMemStoreMeta_result,
    Decoding.getMemStoreMeta_congr fun e he => .of_within hb (hwithin e he)]

theorem readsReceived_iff {buf : Memory} {retlen : ℕ} (hlen : retlen ≤ 2 ^ 30) (mgr : MetaManager) :
    ReadsReceived buf retlen mgr ↔ Complete buf retlen := by
  constructor
  · rintro ⟨hwithin, -, hrejects⟩
    obtain ⟨hhead, hbody⟩ := Decoding.within_iff.mp hwithin
    refine ⟨hhead, or_iff_not_imp_left.mpr fun hshort => ?_⟩
    obtain ⟨hid, hres⟩ := Decoding.result_ok_iff.mp (hrejects (by omega))
    obtain ⟨hmark, hreads⟩ := hbody hid
    refine ⟨hid, hmark, fun hend => hshort ?_⟩
    rw [Decoding.afterMark, if_pos hend] at hres hreads
    have hfits := Decoding.install_reads hhead hres hreads
    -- the counts fit the received bytes, so the mark stands at the end of the announced message
    have hsize : announced buf < 2 ^ 64 := by
      unfold announced
      omega
    rw [← markAt_eq hsize]
    exact hmark
  · rintro ⟨hhead, hall | ⟨hid, hin, hmark⟩⟩
    · have hat : markAt buf + 8 = announced buf := markAt_eq (by omega)
      refine .of_within (Decoding.within_iff.mpr ⟨hhead, fun _ => ⟨by omega, ?_⟩⟩) (by omega)
      unfold Decoding.afterMark
      split_ifs
      · apply Decoding.install_within
        unfold announced at hall
        omega
      · simp
    · refine .of_within (Decoding.within_iff.mpr ⟨hhead, fun _ => ⟨hin, ?_⟩⟩) fun _ => ?_
      · rw [Decoding.afterMark, if_neg hmark]
        simp
      · apply Decoding.result_ok_iff.mpr
        refine ⟨hid, ?_⟩
        rw [Decoding.afterMark, if_neg hmark]
        rfl

def headed (primaryMetaNum backupMetaNum : UInt64) (machineId : Int32) (mark : ℕ) : Memory :=
  let m := writeWord (fun _ => 0) 0 primaryMetaNum
  let m := writeWord m 8 backupMetaNum
  let m := writeInt m 16 machineId
  writeWord m mark memStoreMetaEnd

theorem readsReceived_iff_whole_message : ReadsReceived (headed 1 0 1 60) 68 MetaManager.empty :=
  (readsReceived_iff (by decide) _).mpr ⟨by decide, .inl (by decide +kernel)⟩

theorem truncated_message_installed :
    (∃ mgr', getMemStoreMeta (some (headed 1 0 1 60)) MetaManager.empty = .ok (1, mgr') ∧
      (mgr'.primaryHashMetas 0).isSome) ∧ ¬ ReadsReceived (headed 1 0 1 60) 20 MetaManager.empty := by
  have hret : (getMemStoreMeta (some (headed 1 0 1 60)) MetaManager.empty).toOption.map
      (fun r => (r.1, (r.2.primaryHashMetas 0).isSome)) = some (1, true) := by decide +kernel
  cases hdec : getMemStoreMeta (some (headed 1 0 1 60)) MetaManager.empty with
  | error e =>
    rw [hdec] at hret
    cases hret
  | ok r =>
    obtain ⟨id, mgr'⟩ := r
    rw [hdec] at hret
    obtain ⟨hid, hsome⟩ := Prod.mk.inj (Option.some.inj hret)
    refine ⟨⟨mgr', by rw [← hid], hsome⟩, fun R => ?_⟩
    have hneg := R.rejects (by decide +kernel)
    rw [hdec] at hneg
    have heq : (1 : Int32) = -1 := hid.symm.trans (Prod.mk.inj (Except.ok.inj hneg)).1
    exact absurd heq (by decide)

end MetadataService.MetaExchange
