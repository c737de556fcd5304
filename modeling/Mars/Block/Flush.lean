import Mars.Block.Accounting
import Mars.Block.Flat

/-!
# The flush of the last writer

A write or delete reaches the device only through consumers that are open for writing, so the
adapter has a writer at that moment. The count of writers only goes back to zero by an `access`
that has flushed the device before.
-/

namespace Mars.Block

variable {dev : Device} {g g' : Graph}

/-! ### The calls a device has received -/

def DeviceCall.modifies : DeviceCall → Bool
  | .writeBlocks _ _ | .deleteBlocks _ _ => true
  | .flush | .readBlocks _ _             => false

/-- After each of the calls that modifies the device there is a flush that succeeded. -/
def Flushed (answer : List DeviceCall → DeviceCall → Except BlockError Unit)
    (calls : List DeviceCall) : Prop :=
  ∀ l₁ c l₂, calls = l₁ ++ c :: l₂ → c.modifies = true →
    ∃ m₁ m₂, l₂ = m₁ ++ .flush :: m₂ ∧ answer (l₁ ++ c :: m₁) .flush = .ok ()

variable {answer : List DeviceCall → DeviceCall → Except BlockError Unit}
  {calls : List DeviceCall}

lemma snoc_eq_append_cons {c x : DeviceCall} {l₁ l₂ : List DeviceCall}
    (h : calls ++ [x] = l₁ ++ c :: l₂) :
    (c = x ∧ l₂ = []) ∨ ∃ m, l₂ = m ++ [x] ∧ calls = l₁ ++ c :: m := by
  rcases List.eq_nil_or_concat l₂ with rfl | ⟨m, y, rfl⟩
  · have := List.append_inj_right' h rfl
    exact .inl ⟨(List.cons.inj this).1.symm, rfl⟩
  · rw [List.concat_eq_append, ← List.cons_append, ← List.append_assoc] at h
    obtain rfl := (List.cons.inj (List.append_inj_right' h rfl)).1
    exact .inr ⟨m, List.concat_eq_append, List.append_inj_left' h rfl⟩

lemma flushed_nil : Flushed answer [] := by
  intro l₁ c l₂ h
  simp at h

lemma Flushed.snoc (h : Flushed answer calls) {x : DeviceCall} (hx : x.modifies = false) :
    Flushed answer (calls ++ [x]) := by
  intro l₁ c l₂ hl hc
  rcases snoc_eq_append_cons hl with ⟨rfl, -⟩ | ⟨m, rfl, hcalls⟩
  · rw [hx] at hc
    cases hc
  · obtain ⟨m₁, m₂, rfl, hans⟩ := h l₁ c m hcalls hc
    exact ⟨m₁, m₂ ++ [x], by simp, hans⟩

lemma flushed_snoc_flush (hans : answer calls .flush = .ok ()) :
    Flushed answer (calls ++ [.flush]) := by
  intro l₁ c l₂ hl hc
  rcases snoc_eq_append_cons hl with ⟨rfl, -⟩ | ⟨m, rfl, rfl⟩
  · cases hc
  · exact ⟨m, [], rfl, hans⟩

/-! ### The adapter -/

variable {req : IoRequest}

/-- The adapter over the device `dev` has made the calls `calls`, and they are flushed unless
there is a writer. -/
structure Tracks (dev : Device) (calls : List DeviceCall) (a : HardwareAdapter) : Prop where
  answer_eq : a.device.answer = dev.answer
  log_eq : a.device.log = dev.log ++ calls
  safe : 0 < a.counts.write ∨ Flushed (fun l => dev.answer (dev.log ++ l)) calls

lemma Tracks.access {a : HardwareAdapter} (h : Tracks dev calls a) (d : Counts) :
    ∃ calls', Tracks dev calls' (a.access d).2 := by
  simp only [HardwareAdapter.access]
  split_ifs with hneg hex hin hflush
  · exact ⟨calls, h⟩
  · exact ⟨calls, h⟩
  · exact ⟨calls, h⟩
  · have hlog : a.device.log ++ [.flush] = dev.log ++ (calls ++ [.flush]) := by
      rw [h.log_eq, List.append_assoc]
    rw [Device.call]
    cases hans : a.device.answer a.device.log .flush with
    | ok u =>
      refine ⟨calls ++ [.flush], h.answer_eq, hlog, .inr (flushed_snoc_flush ?_)⟩
      rw [← h.answer_eq, ← h.log_eq]
      exact hans
    | error e => exact ⟨calls ++ [.flush], h.answer_eq, hlog, .inl hflush.1⟩
  · refine ⟨calls, h.answer_eq, h.log_eq, ?_⟩
    rcases h.safe with hpos | hsafe
    · exact .inl (Int64.not_le.mp fun hle => hflush ⟨hpos, hle⟩)
    · exact .inr hsafe

lemma Tracks.request {a : HardwareAdapter} (h : Tracks dev calls a)
    (hreq : req.deviceCall.modifies = true → 0 < a.counts.write) :
    ∃ calls', Tracks dev calls' (a.request req).2 := by
  refine ⟨calls ++ [req.deviceCall], h.answer_eq, ?_, ?_⟩
  · show a.device.log ++ [req.deviceCall] = _
    rw [h.log_eq, List.append_assoc]
  · show 0 < a.counts.write ∨ _
    by_cases hmod : req.deviceCall.modifies = true
    · exact .inl (hreq hmod)
    · exact h.safe.imp_right fun hsafe => hsafe.snoc (Bool.not_eq_true _ ▸ hmod)

/-! ### The layers above the adapter -/

variable {r : Except BlockError Unit}

/-- An `access` either stops above the adapter or arrives there unchanged. -/
lemma Provider.access_reaches (p : Provider) (d : Counts) (g : Graph) :
    (p.access d g).2.adapter = g.adapter ∨ (p.access d g).2.adapter = (g.adapter.access d).2 := by
  induction p with
  | adapter => exact .inr rfl
  | partition id parent s n ih =>
    rw [Provider.access_partition]
    rcases hca : consumerAccess (g.parentCounts id) d (parent.access d) g with ⟨r, c, g₁⟩
    rcases consumerAccess_cases hca with ⟨-, -, rfl⟩ | ⟨hin, -⟩ | ⟨e, hin, -⟩
    · exact .inl rfl
    · rwa [hin] at ih
    · rwa [hin] at ih

lemma Tracks.providerAccess (h : Tracks dev calls g.adapter) (p : Provider) (d : Counts) :
    ∃ calls', Tracks dev calls' (p.access d g).2.adapter := by
  rcases p.access_reaches d g with hsame | hacc
  · exact ⟨calls, hsame ▸ h⟩
  · rw [hacc]
    exact h.access d

lemma Tracks.consumerAccess (h : Tracks dev calls g.adapter) {c c' : Consumer} {d : Counts}
    (hacc : c.access d g = (r, c', g')) : ∃ calls', Tracks dev calls' g'.adapter := by
  rcases hca : Block.consumerAccess c.counts d (c.provider.access d) g with ⟨r₀, n, g₁⟩
  simp only [Consumer.access, hca] at hacc
  cases hacc
  have hp := h.providerAccess c.provider d
  rcases consumerAccess_cases hca with ⟨-, -, rfl⟩ | ⟨hin, -⟩ | ⟨e, hin, -⟩
  · exact ⟨calls, h⟩
  · rwa [hin] at hp
  · rwa [hin] at hp

lemma Tracks.drop (h : Tracks dev calls g.adapter) (c : Consumer) :
    ∃ calls', Tracks dev calls' (c.drop g).adapter := by
  rw [Consumer.drop]
  split_ifs
  · exact h.providerAccess c.provider c.counts.neg
  · exact ⟨calls, h⟩

/-- What a consumer lets through to its provider is covered by its counts. -/
lemma consumerRequest_open {c : Counts} {bs : Nat} {cap : UInt64}
    {inner : IoRequest → Graph → Except BlockError Unit × Graph}
    (h : consumerRequest c bs cap inner req g = (r, g')) :
    g' = g ∨ (inner req g = (r, g') ∧ (req.deviceCall.modifies = true → 0 < c.write)) := by
  simp only [consumerRequest] at h
  split at h
  · exact .inl (Prod.mk.inj h).2.symm
  split at h
  · exact .inl (Prod.mk.inj h).2.symm
  simp only [IoRequest.deviceCall]
  cases hcmd : req.cmd with
  | read buf =>
    simp only [hcmd] at h
    split_ifs at h
    · exact .inl (Prod.mk.inj h).2.symm
    · exact .inl (Prod.mk.inj h).2.symm
    · exact .inr ⟨h, by simp [DeviceCall.modifies]⟩
  | write buf =>
    simp only [hcmd] at h
    split_ifs at h with _ hw
    · exact .inl (Prod.mk.inj h).2.symm
    · exact .inl (Prod.mk.inj h).2.symm
    · exact .inr ⟨h, fun _ => Int64.not_le.mp hw⟩
  | delete blocks =>
    simp only [hcmd] at h
    split_ifs at h with hw
    · exact .inl (Prod.mk.inj h).2.symm
    · exact .inr ⟨h, fun _ => Int64.not_le.mp hw⟩
  | flush =>
    simp only [hcmd] at h
    exact .inr ⟨h, by simp [DeviceCall.modifies]⟩

/-- A request either stops above the adapter or arrives there with the same command. -/
lemma Provider.request_reaches (p : Provider) (h : p.request req g = (r, g')) :
    g'.adapter = g.adapter ∨
      ∃ req', req'.cmd = req.cmd ∧ g'.adapter = (g.adapter.request req').2 := by
  induction p generalizing req with
  | adapter =>
    cases h
    exact .inr ⟨req, rfl, rfl⟩
  | partition id parent s n ih =>
    simp only [Provider.request] at h
    have hsubmit : ∀ req', req'.cmd = req.cmd →
        consumerRequest (g.parentCounts id) (g.blockSize parent) (g.blockCount parent)
          parent.request req' g = (r, g') →
        g'.adapter = g.adapter ∨
          ∃ req', req'.cmd = req.cmd ∧ g'.adapter = (g.adapter.request req').2 := by
      intro req' hcmd h'
      rcases consumerRequest_cases h' with rfl | hin
      · exact .inl rfl
      · rw [← hcmd]
        exact ih hin
    split at h
    · exact hsubmit req rfl h
    split at h
    · exact .inl (congrArg Graph.adapter (Prod.mk.inj h).2.symm)
    split at h
    · exact .inl (congrArg Graph.adapter (Prod.mk.inj h).2.symm)
    split at h
    · exact .inl (congrArg Graph.adapter (Prod.mk.inj h).2.symm)
    · rename_i lba _
      exact hsubmit ⟨req.cmd, lba⟩ rfl h

lemma modifies_congr {req' : IoRequest} (h : req'.cmd = req.cmd) :
    req'.deviceCall.modifies = req.deviceCall.modifies := by
  simp only [IoRequest.deviceCall, h]
  cases req.cmd <;> rfl

/-- A write reaches the device only while the adapter has a writer. -/
lemma Tracks.consumerRequest (h : Tracks dev calls g.adapter) (hg : g.Inv dev) {c : Consumer}
    (hc : c ∈ g.consumers) (hreq : c.request req g = (r, g')) :
    ∃ calls', Tracks dev calls' g'.adapter := by
  rcases consumerRequest_open hreq with rfl | ⟨hin, hopen⟩
  · exact ⟨calls, h⟩
  · rcases c.provider.request_reaches hin with hsame | ⟨req', hcmd, hreach⟩
    · exact ⟨calls, hsame ▸ h⟩
    · rw [hreach]
      refine h.request fun hmod => ?_
      rw [modifies_congr hcmd] at hmod
      have hpos := hopen hmod
      have hle := Int.le_trans (hg.count_le_of_consumer hc .write)
        (hg.own_le_adapter (hg.consumer_live c hc) .write)
      have h0 : (0 : Int64).toInt = 0 := rfl
      simp only [Int64.lt_iff_toInt_lt, h0] at hpos ⊢
      simp only [Counts.count] at hle
      omega

/-! ### Runs -/

lemma Reachable.tracks (h : Reachable dev g) : ∃ calls, Tracks dev calls g.adapter := by
  induction h with
  | refl => exact ⟨[], rfl, (List.append_nil _).symm, .inr flushed_nil⟩
  | tail hrun hstep ih =>
    obtain ⟨calls, hcalls⟩ := ih
    cases hstep with
    | attach p hp => exact ⟨calls, hcalls⟩
    | access d hc h =>
      obtain ⟨calls', hcalls'⟩ := hcalls.consumerAccess h
      exact ⟨calls', hcalls'⟩
    | request req hc h => exact hcalls.consumerRequest (Reachable.inv hrun) hc h
    | drop hc => exact hcalls.drop _
    | partition id s n hc hid h => exact ⟨calls, hcalls⟩
    | partitionError id s n hc _ => exact hcalls.drop _
    | dropPartition hp hc hq => exact hcalls.drop _

/-- All writes and deletes that reached the device since it was `dev` have been flushed. -/
def Graph.FlushedSince (dev : Device) (g : Graph) : Prop :=
  ∃ calls, g.device.log = dev.log ++ calls ∧ Flushed (fun l => dev.answer (dev.log ++ l)) calls

lemma Tracks.flushedSince (h : Tracks dev calls g.adapter) (hzero : g.adapter.counts.write = 0) :
    g.FlushedSince dev := by
  refine ⟨calls, h.log_eq, h.safe.resolve_left ?_⟩
  rw [hzero]
  exact Int64.lt_irrefl

/-- Whenever the adapter has no writer, all writes and deletes that reached the device have been
flushed successfully since. In particular an `access` that leaves no writer only succeeds when
they have. -/
theorem Reachable.flushed (h : Reachable dev g) :
    g.device.answer = dev.answer ∧ (g.adapter.counts.write = 0 → g.FlushedSince dev) ∧
      ∀ c ∈ g.consumers, ∀ d c' g', c.access d g = (.ok (), c', g') →
        g'.adapter.counts.write = 0 → g'.FlushedSince dev := by
  obtain ⟨calls, hcalls⟩ := h.tracks
  refine ⟨hcalls.answer_eq, hcalls.flushedSince, ?_⟩
  intro c _ d c' g' hacc hzero
  obtain ⟨calls', hcalls'⟩ := hcalls.consumerAccess hacc
  exact hcalls'.flushedSince hzero

def sampleWrite : IoRequest :=
  { cmd := .write { bytes := [1, 2, 3, 4], length_lt := by decide }, lba := 5 }

/-- What is left of the sample device after a writer wrote a block and was dropped. -/
def writtenGraph : Graph :=
  { Graph.new sampleDevice with
    adapter := ⟨{ sampleDevice with log := [sampleWrite.deviceCall, .flush] }, Counts.zero⟩ }

lemma reachable_writtenGraph : Reachable sampleDevice writtenGraph := by
  have hrun : (Graph.new sampleDevice).runAll
      [.attach .adapter, .access 0 ⟨0, 1, 0⟩, .request 0 sampleWrite, .drop 0] =
        some writtenGraph := rfl
  exact reachable_runAll hrun

theorem writtenGraph_flushed : writtenGraph.FlushedSince sampleDevice :=
  reachable_writtenGraph.flushed.2.1 rfl

end Mars.Block
