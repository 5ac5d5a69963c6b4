import MetadataService.MetaDecoding

namespace MetadataService.MetaExchange

open ByteMemory MemStore Tracing

namespace Decoding

/-- A node that cannot be reached, or whose `recv` fails, has sent nothing. -/
def answer (recv : Option Memory) (mgr : MetaManager) : Decoding (Int32 × MetaManager) :=
  match recv with
  | none => return (-1, mgr)
  | some buf => getMemStoreMeta buf mgr

def metaManager : List (Option Memory) → MetaManager → List Int32 → Decoding (MetaManager × List Int32)
  | [], mgr, remoteNodes => return (mgr, remoteNodes)
  | recv :: rest, mgr, remoteNodes => do
    let (remoteMachineId, mgr) ← answer recv mgr
    metaManager rest mgr (remoteNodes ++ [remoteMachineId])

end Decoding

def NodeInRange (id : Int32) : Prop := 0 ≤ id ∧ id < 100

instance (id : Int32) : Decidable (NodeInRange id) := inferInstanceAs (Decidable (_ ∧ _))

theorem NodeInRange.toNat_lt {id : Int32} (h : NodeInRange id) : id.toInt.toNat < 100 := by
  have h0 := Int32.le_iff_toInt_le.mp h.1
  have h1 := Int32.lt_iff_toInt_lt.mp h.2
  simp only [Int32.reduceToInt] at h0 h1
  omega

structure QPManager (Q : Type) where
  dataQps : Fin 100 → Option Q
  logQps : Fin 100 → Option Q

namespace QPManager

variable {Q : Type}

def slot (id : Int32) : Except Crash (Fin 100) :=
  if h : NodeInRange id then .ok ⟨id.toInt.toNat, h.toNat_lt⟩ else .error .outOfBounds

def buildQPConnection (dataQp logQp : Int32 → Q) : List Int32 → QPManager Q → Except Crash (QPManager Q)
  | [], q => .ok q
  | id :: rest, q => do
    let i ← slot id
    buildQPConnection dataQp logQp rest
      ⟨Function.update q.dataQps i (some (dataQp id)), Function.update q.logQps i (some (logQp id))⟩

def getRemoteDataQPWithNodeID (q : QPManager Q) (id : Int32) : Except Crash (Option Q) := do
  let i ← slot id
  return q.dataQps i

theorem slot_ok {id : Int32} : (∃ i, slot id = .ok i) ↔ NodeInRange id := by
  unfold slot
  split_ifs with h <;> simp [h]

theorem buildQPConnection_ok (dataQp logQp : Int32 → Q) (ids : List Int32) (q : QPManager Q) :
    (∃ q', buildQPConnection dataQp logQp ids q = .ok q') ↔ ∀ id ∈ ids, NodeInRange id := by
  induction ids generalizing q with
  | nil => simp [buildQPConnection]
  | cons id rest ih =>
    rw [List.forall_mem_cons, ← slot_ok]
    constructor
    · rintro ⟨q', h⟩
      obtain ⟨i, hi, h⟩ := bind_ok.mp h
      exact ⟨⟨i, hi⟩, (ih _).mp ⟨q', h⟩⟩
    · rintro ⟨⟨i, hi⟩, hrest⟩
      obtain ⟨q', h⟩ := (ih _).mpr hrest
      exact ⟨q', bind_ok.mpr ⟨i, hi, h⟩⟩

theorem getRemoteDataQPWithNodeID_ok (q : QPManager Q) (id : Int32) :
    (∃ qp, q.getRemoteDataQPWithNodeID id = .ok qp) ↔ NodeInRange id := by
  rw [← slot_ok]
  constructor
  · rintro ⟨qp, h⟩
    obtain ⟨i, hi, -⟩ := bind_ok.mp h
    exact ⟨i, hi⟩
  · rintro ⟨i, hi⟩
    exact ⟨_, bind_ok.mpr ⟨i, hi, rfl⟩⟩

end QPManager

def Access.InArray : Access → Prop
  | .read _ _ => True
  | .index tableId => tableId.toNat < 15

structure IdentifiersInRange (msgs : List (Option Memory)) : Prop where
  tables : ∀ a ∈ (Decoding.metaManager msgs MetaManager.empty []).log, a.InArray
  nodes : ∀ mgr remoteNodes,
    (Decoding.metaManager msgs MetaManager.empty []).result = .ok (mgr, remoteNodes) →
      ∀ id ∈ remoteNodes, NodeInRange id
  connects : ∀ mgr remoteNodes,
    (Decoding.metaManager msgs MetaManager.empty []).result = .ok (mgr, remoteNodes) →
      ∀ {Q : Type} (dataQp logQp : Int32 → Q) (q : QPManager Q),
        (∃ q', q.buildQPConnection dataQp logQp remoteNodes = .ok q') ∧
          ∀ t id, mgr.primaryTableNodes t = some id → ∃ qp, q.getRemoteDataQPWithNodeID id = .ok qp

section Message

variable (buf : Memory)

def EndsWithMark : Prop := readWord buf (markAt buf) = memStoreMetaEnd

def Fatal : Prop := 100 ≤ readInt buf 16

def BackupsInRange : Prop :=
  readInt buf 16 < 100 → EndsWithMark buf → ∀ i < (readWord buf 8).toNat,
    (readMeta buf (20 + 40 * (readWord buf 0).toNat + 40 * i)).tableId.toNat < 15

end Message

/-- The constructor comes to every message up to the first fatal one. -/
def TablesFine : List (Option Memory) → Prop
  | [] => True
  | none :: rest => TablesFine rest
  | some buf :: rest => BackupsInRange buf ∧ (Fatal buf ∨ TablesFine rest)

def Identified (recv : Option Memory) : Prop := ∃ buf, recv = some buf ∧ EndsWithMark buf ∧ 0 ≤ readInt buf 16

def NodesFine (msgs : List (Option Memory)) : Prop :=
  (∃ buf, some buf ∈ msgs ∧ Fatal buf) ∨ ∀ recv ∈ msgs, Identified recv

namespace Decoding

variable {buf : Memory} {id : Int32} {k off : ℕ} {mgr : MetaManager}

theorem primaryLoop_inArray : ∀ a ∈ (primaryLoop buf id k off mgr).log, a.InArray := by
  induction k generalizing off mgr with
  | zero => simp [primaryLoop]
  | succ k ih =>
    rw [primaryLoop, Traced.forall_bind_log]
    exact ⟨by simp [readAt, Access.InArray], fun x _ => ih⟩

theorem pushBackup_ok {x : HashMeta} : (∃ mgr', (pushBackup mgr id x).result = .ok mgr') ↔
    x.tableId.toNat < 15 := by
  simp only [pushBackup, Traced.touch_result, MetaManager.addBackup]
  split_ifs with h <;> simp [h]

theorem backupLoop_inArray : (∀ a ∈ (backupLoop buf id k off mgr).log, a.InArray) ↔
    ∀ i < k, (readMeta buf (off + 40 * i)).tableId.toNat < 15 := by
  induction k generalizing off mgr with
  | zero => simp [backupLoop]
  | succ k ih =>
    rw [backupLoop, readAt_bind, List.forall_mem_cons, Traced.forall_bind_log]
    constructor
    · rintro ⟨-, hindex, hrest⟩ i hi
      have hfirst : (readMeta buf off).tableId.toNat < 15 :=
        hindex (.index (readMeta buf off).tableId) List.mem_cons_self
      cases i with
      | zero => exact hfirst
      | succ i =>
        obtain ⟨mgr', hmgr⟩ := pushBackup_ok.mpr hfirst
        have hnext := ih.mp (hrest mgr' hmgr) i (by omega)
        rwa [show off + 40 + 40 * i = off + 40 * (i + 1) by omega] at hnext
    · intro h
      refine ⟨trivial, ?_, fun mgr' _ => ih.mpr ?_⟩
      · simpa [pushBackup, Access.InArray] using h 0 (by omega)
      · intro i hi
        have hnext := h (i + 1) (by omega)
        rwa [show off + 40 * (i + 1) = off + 40 + 40 * i by omega] at hnext

theorem backupLoop_returns (ht : ∀ i < k, (readMeta buf (off + 40 * i)).tableId.toNat < 15) :
    ∃ mgr', (backupLoop buf id k off mgr).result = .ok mgr' := by
  induction k generalizing off mgr with
  | zero => exact ⟨mgr, rfl⟩
  | succ k ih =>
    obtain ⟨mgr₁, hpush⟩ : ∃ mgr₁, (pushBackup mgr id (readMeta buf off)).result = .ok mgr₁ :=
      pushBackup_ok.mpr (ht 0 (by omega))
    have hnext : ∀ i < k, (readMeta buf (off + 40 + 40 * i)).tableId.toNat < 15 := by
      intro i hi
      rw [show off + 40 + 40 * i = off + 40 * (i + 1) by omega]
      exact ht (i + 1) (by omega)
    obtain ⟨mgr', hrest⟩ : ∃ mgr', (backupLoop buf id k (off + 40) mgr₁).result = .ok mgr' := ih hnext
    refine ⟨mgr', ?_⟩
    simp only [backupLoop, Traced.bind_result, bind_ok]
    exact ⟨_, readAt_ok.mpr rfl, mgr₁, hpush, hrest⟩

theorem install_inArray {p b : ℕ} : (∀ a ∈ (install buf id p b mgr).log, a.InArray) ↔
    ∀ i < b, (readMeta buf (20 + 40 * p + 40 * i)).tableId.toNat < 15 := by
  rw [install, Traced.forall_bind_log]
  constructor
  · rintro ⟨-, h⟩
    have hrest := h _ (primaryLoop_result p 20 mgr)
    exact backupLoop_inArray.mp (Traced.forall_bind_log.mp hrest).1
  · intro h
    refine ⟨primaryLoop_inArray, fun mgr₁ _ => ?_⟩
    rw [Traced.forall_bind_log]
    exact ⟨backupLoop_inArray.mpr h, by simp⟩

theorem install_returns {p b : ℕ} (ht : ∀ i < b, (readMeta buf (20 + 40 * p + 40 * i)).tableId.toNat < 15) :
    ∃ mgr', (install buf id p b mgr).result = .ok (id, mgr') := by
  obtain ⟨mgr₂, hb⟩ : ∃ mgr₂, (backupLoop buf id b (20 + 40 * p)
      (MetaExchange.primaryLoop buf id p 20 mgr)).result = .ok mgr₂ := backupLoop_returns ht
  refine ⟨mgr₂, ?_⟩
  simp only [install, Traced.bind_result, bind_ok]
  exact ⟨_, primaryLoop_result p 20 mgr, mgr₂, hb, rfl⟩

theorem afterMark_ends (h : EndsWithMark buf) : afterMark buf mgr (readWord buf (markAt buf)) =
    install buf (readInt buf 16) (readWord buf 0).toNat (readWord buf 8).toNat mgr := if_pos h

theorem afterMark_lacks (h : ¬ EndsWithMark buf) :
    afterMark buf mgr (readWord buf (markAt buf)) = pure (-1, mgr) := if_neg h

theorem getMemStoreMeta_inArray :
    (∀ a ∈ (getMemStoreMeta buf mgr).log, a.InArray) ↔ BackupsInRange buf := by
  have hread : ∀ off len, (Access.read off len).InArray := fun _ _ => trivial
  rw [forall_log_iff]
  simp only [hread, and_self, true_and]
  refine imp_congr_right fun _ => ?_
  by_cases hend : EndsWithMark buf
  · rw [afterMark_ends hend, install_inArray, imp_iff_right hend]
  · rw [afterMark_lacks hend]
    exact iff_of_true (by simp) (absurd · hend)

theorem getMemStoreMeta_fatal (h : Fatal buf) (r : Int32 × MetaManager) :
    (getMemStoreMeta buf mgr).result ≠ .ok r := by
  rw [getMemStoreMeta_result]
  intro hret
  exact Int32.not_le.mpr (result_ok_iff.mp hret).1 h

theorem getMemStoreMeta_returns (hb : BackupsInRange buf) (hf : ¬ Fatal buf) (mgr : MetaManager) :
    ∃ id mgr', (getMemStoreMeta buf mgr).result = .ok (id, mgr') ∧
      (NodeInRange id ↔ Identified (some buf)) := by
  have hid : readInt buf 16 < 100 := Int32.not_le.mp hf
  rw [getMemStoreMeta_result]
  by_cases hend : EndsWithMark buf
  · obtain ⟨mgr', hres⟩ : ∃ mgr', (install buf (readInt buf 16) (readWord buf 0).toNat
        (readWord buf 8).toNat mgr).result = .ok (readInt buf 16, mgr') := install_returns (hb hid hend)
    refine ⟨readInt buf 16, mgr', result_ok_iff.mpr ⟨hid, ?_⟩, ?_⟩
    · rw [afterMark_ends hend, hres]
    · simp [NodeInRange, Identified, hid, hend]
  · refine ⟨-1, mgr, result_ok_iff.mpr ⟨hid, ?_⟩, ?_⟩
    · rw [afterMark_lacks hend]
      rfl
    · simp [Identified, hend, NodeInRange]

variable {msgs : List (Option Memory)} {remoteNodes : List Int32}

theorem metaManager_inArray (msgs : List (Option Memory)) (mgr : MetaManager) (remoteNodes : List Int32) :
    (∀ a ∈ (metaManager msgs mgr remoteNodes).log, a.InArray) ↔ TablesFine msgs := by
  induction msgs generalizing mgr remoteNodes with
  | nil => simp [metaManager, TablesFine]
  | cons recv rest ih =>
    rw [metaManager, Traced.forall_bind_log]
    simp only [ih]
    cases recv with
    | none => simp [answer, TablesFine]
    | some buf =>
      rw [TablesFine, answer, getMemStoreMeta_inArray]
      refine and_congr_right fun hb => ?_
      by_cases hf : Fatal buf
      · exact iff_of_true (fun r hr => absurd hr (getMemStoreMeta_fatal hf r)) (.inl hf)
      · obtain ⟨id, mgr', hr, -⟩ := getMemStoreMeta_returns hb hf mgr
        rw [or_iff_right hf]
        exact ⟨fun h => h _ hr, fun h _ _ => h⟩

theorem metaManager_step {recv : Option Memory} {mgr' : MetaManager}
    (h : (answer recv mgr).result = .ok (id, mgr')) (rest : List (Option Memory)) (remoteNodes : List Int32) :
    (metaManager (recv :: rest) mgr remoteNodes).result =
      (metaManager rest mgr' (remoteNodes ++ [id])).result := by
  rw [metaManager, Traced.bind_result, h]
  rfl

theorem metaManager_nodes (h : TablesFine msgs) (mgr : MetaManager) (remoteNodes : List Int32) :
    (∀ mgr' nodes, (metaManager msgs mgr remoteNodes).result = .ok (mgr', nodes) →
      ∀ id ∈ nodes, NodeInRange id) ↔
    (∃ buf, some buf ∈ msgs ∧ Fatal buf) ∨
      (∀ id ∈ remoteNodes, NodeInRange id) ∧ ∀ recv ∈ msgs, Identified recv := by
  induction msgs generalizing mgr remoteNodes with
  | nil => simp [metaManager]
  | cons recv rest ih =>
    cases recv with
    | none =>
      have hbad : ¬ NodeInRange (-1) := by decide
      have hfail : (answer none mgr).result = .ok (-1, mgr) := rfl
      rw [metaManager_step hfail, ih h]
      simp [Identified, hbad]
    | some buf =>
      obtain ⟨hb, hrest⟩ := h
      by_cases hf : Fatal buf
      · refine iff_of_true ?_ (.inl ⟨buf, List.mem_cons_self, hf⟩)
        intro mgr' nodes hret
        rw [metaManager, Traced.bind_result] at hret
        obtain ⟨r, hr, -⟩ := bind_ok.mp hret
        exact absurd hr (getMemStoreMeta_fatal hf r)
      · obtain ⟨id, mgr₁, hr, hid⟩ := getMemStoreMeta_returns hb hf mgr
        have hanswer : (answer (some buf) mgr).result = .ok (id, mgr₁) := hr
        have hone : (∃ b, some b ∈ some buf :: rest ∧ Fatal b) ↔ ∃ b, some b ∈ rest ∧ Fatal b := by
          simp [or_and_right, exists_or, hf]
        rw [metaManager_step hanswer, ih (hrest.resolve_left hf), hone, List.forall_mem_cons, ← hid]
        simp only [List.forall_mem_append, List.forall_mem_singleton, and_assoc]

theorem primaryLoop_tableNodes {t : UInt64} {x : Int32}
    (ht : (MetaExchange.primaryLoop buf id k off mgr).primaryTableNodes t = some x) :
    mgr.primaryTableNodes t = some x ∨ x = id := by
  induction k generalizing off mgr with
  | zero => exact .inl ht
  | succ k ih =>
    rcases ih ht with hx | hx
    · by_cases heq : t = (readMeta buf off).tableId
      · subst heq
        simp only [MetaManager.addPrimary, Function.update_self, Option.some.injEq] at hx
        exact .inr hx.symm
      · simp only [MetaManager.addPrimary, Function.update_of_ne heq] at hx
        exact .inl hx
    · exact .inr hx

theorem backupLoop_tableNodes {mgr' : MetaManager} (h : MetaExchange.backupLoop buf id k off mgr = .ok mgr') :
    mgr'.primaryTableNodes = mgr.primaryTableNodes := by
  induction k generalizing off mgr with
  | zero =>
    obtain rfl := Except.ok.inj h
    rfl
  | succ k ih =>
    obtain ⟨mgr₁, hadd, h⟩ := bind_ok.mp h
    unfold MetaManager.addBackup at hadd
    split_ifs at hadd
    obtain rfl := Except.ok.inj hadd
    have hrest := ih h
    exact hrest

theorem answer_tableNodes {recv : Option Memory} {mgr' : MetaManager}
    (h : (answer recv mgr).result = .ok (id, mgr')) {t : UInt64} {x : Int32}
    (ht : mgr'.primaryTableNodes t = some x) : mgr.primaryTableNodes t = some x ∨ x = id := by
  cases recv with
  | none =>
    obtain ⟨-, rfl⟩ := Prod.mk.inj (Except.ok.inj h)
    exact .inl ht
  | some buf =>
    rw [answer, getMemStoreMeta_result] at h
    rcases getMemStoreMeta_ok h with ⟨-, rfl⟩ | ⟨hb, rfl⟩
    · exact .inl ht
    · rw [backupLoop_tableNodes hb] at ht
      exact primaryLoop_tableNodes ht

theorem metaManager_tableNodes {mgr' : MetaManager} {nodes : List Int32}
    (h : (metaManager msgs mgr remoteNodes).result = .ok (mgr', nodes))
    (hold : ∀ t x, mgr.primaryTableNodes t = some x → x ∈ remoteNodes) :
    ∀ t x, mgr'.primaryTableNodes t = some x → x ∈ nodes := by
  induction msgs generalizing mgr remoteNodes with
  | nil =>
    obtain ⟨rfl, rfl⟩ := Prod.mk.inj (Except.ok.inj h)
    exact hold
  | cons recv rest ih =>
    rw [metaManager, Traced.bind_result] at h
    obtain ⟨⟨id, mgr₁⟩, hr, h⟩ := bind_ok.mp h
    apply ih h
    intro t x hx
    rcases answer_tableNodes hr hx with hx | rfl
    · exact List.mem_append_left _ (hold t x hx)
    · exact List.mem_append_right _ List.mem_cons_self

end Decoding

theorem identifiersInRange_iff (msgs : List (Option Memory)) :
    IdentifiersInRange msgs ↔ TablesFine msgs ∧ NodesFine msgs := by
  have hnodes (h : TablesFine msgs) := Decoding.metaManager_nodes h MetaManager.empty []
  simp only [List.not_mem_nil, false_imp_iff, implies_true, true_and] at hnodes
  constructor
  · intro R
    have htables := (Decoding.metaManager_inArray _ _ _).mp R.tables
    exact ⟨htables, (hnodes htables).mp R.nodes⟩
  · rintro ⟨htables, hfine⟩
    have hrange := (hnodes htables).mpr hfine
    refine ⟨(Decoding.metaManager_inArray _ _ _).mpr htables, hrange, ?_⟩
    intro mgr remoteNodes hret Q dataQp logQp q
    constructor
    · apply (QPManager.buildQPConnection_ok dataQp logQp remoteNodes q).mpr
      exact hrange mgr remoteNodes hret
    · intro t id ht
      apply (QPManager.getRemoteDataQPWithNodeID_ok q id).mpr
      apply hrange mgr remoteNodes hret
      exact Decoding.metaManager_tableNodes hret (fun _ _ h => nomatch h) t id ht

theorem failed_node_and_backup_indexed :
    ¬ IdentifiersInRange [none] ∧ ¬ IdentifiersInRange [some (writeWord (headed 0 1 1 60) 20 15)] := by
  constructor
  · intro R
    have hfail : NodeInRange (-1) := R.nodes MetaManager.empty [-1] rfl (-1) List.mem_cons_self
    exact absurd hfail (by decide)
  · intro R
    have hindex : Access.InArray (.index 15) := R.tables (.index 15) (by decide +kernel)
    exact Nat.lt_irrefl 15 hindex

end MetadataService.MetaExchange
