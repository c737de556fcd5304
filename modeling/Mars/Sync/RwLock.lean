import Mathlib.Data.Nat.Bitwise
import Mathlib.Logic.Relation

/-!
# The reader-writer lock

Embedding of `RwLock` of `klib/src/sync.rs`. The whole lock is one atomic word: the number of
read guards, and the sign bit once a writer has claimed the lock. An agent is one call of `read`
or `write` with the guard it returns; its accesses to the word are steps that interleave freely.
-/

namespace Mars.Sync.RwLock

/-! ### The code -/

/-- The bits of the `i32` state word. -/
abbrev LockState := BitVec 32

/-- `LockState::MIN`. -/
def WRITER : LockState := 0x80000000#32

/-- `LockState::MAX`. -/
def READERS : LockState := 0x7fffffff#32

/-- Where an agent is: the access it makes next, with the local variable `state` of the loops. -/
inductive Phase where
  | idle
  /-- First load of `read`. -/
  | readLoad
  /-- Top of the loop of `read`. -/
  | readLoop (state : LockState)
  /-- A `RwLockReadGuard` is alive. -/
  | reading
  /-- First load of `write`. -/
  | writeLoad
  /-- Top of the loop of `write`. -/
  | writeLoop (state : LockState)
  /-- The bit is set over a number of readers, wait for them to leave. -/
  | writeWait
  /-- A `RwLockWriteGuard` is alive. -/
  | writing
deriving DecidableEq

/-- The next access of an agent to `word`, for a guard that is alive its drop. A weak
compare-exchange may fail although the word is the one expected. -/
def Phase.next (spurious : Bool) (word : LockState) : Phase → LockState × Phase
  | .idle     => (word, .idle)
  | .readLoad => (word, .readLoop word)
  | .readLoop state =>
    if state &&& WRITER = 0 ∧ state ≠ READERS then
      if word = state ∧ spurious = false then (state + 1, .reading) else (word, .readLoop word)
    else (word, .readLoop word)
  | .reading   => (word - 1, .idle)
  | .writeLoad => (word, .writeLoop word)
  | .writeLoop state =>
    if state &&& WRITER = 0 then
      if word = state ∧ spurious = false then
        (state ||| WRITER, if state = 0 then .writing else .writeWait)
      else (word, .writeLoop word)
    else (word, .writeLoop word)
  | .writeWait => (word, if word = WRITER then .writing else .writeWait)
  | .writing   => (0, .idle)

structure System where
  word : LockState
  agents : List Phase

def System.new (n : Nat) : System := { word := 0, agents := List.replicate n .idle }

/-- One agent calls `read` or `write`, or makes its next access. -/
inductive Step : System → System → Prop where
  | read {word : LockState} {l₁ l₂ : List Phase} :
      Step ⟨word, l₁ ++ .idle :: l₂⟩ ⟨word, l₁ ++ .readLoad :: l₂⟩
  | write {word : LockState} {l₁ l₂ : List Phase} :
      Step ⟨word, l₁ ++ .idle :: l₂⟩ ⟨word, l₁ ++ .writeLoad :: l₂⟩
  | access {word : LockState} {l₁ l₂ : List Phase} {p : Phase} (spurious : Bool) :
      Step ⟨word, l₁ ++ p :: l₂⟩ ⟨(p.next spurious word).1, l₁ ++ (p.next spurious word).2 :: l₂⟩

/-- The states reached by any interleaving of any number of agents. -/
def Reachable (σ : System) : Prop := ∃ n, Relation.ReflTransGen Step (System.new n) σ

/-! ### The word as a number -/

lemma and_writer_eq_zero (s : LockState) : s &&& WRITER = 0 ↔ s.toNat < 2 ^ 31 := by
  rw [← BitVec.toNat_inj, BitVec.toNat_and]
  show s.toNat &&& 2 ^ 31 = 0 ↔ _
  rw [Nat.and_two_pow]
  constructor
  · intro h
    by_contra hge
    have hbit : s.toNat.testBit 31 = true := by
      rw [Nat.testBit_eq_decide_div_mod_eq]
      simp
      omega
    simp [hbit] at h
  · intro h
    rw [Nat.testBit_lt_two_pow h]
    rfl

lemma toNat_or_writer {s : LockState} (h : s.toNat < 2 ^ 31) :
    (s ||| WRITER).toNat = s.toNat + 2 ^ 31 := by
  rw [BitVec.toNat_or]
  show s.toNat ||| 2 ^ 31 = _
  have hadd := Nat.two_pow_add_eq_or_of_lt h 1
  rw [mul_one] at hadd
  rw [Nat.or_comm, ← hadd, add_comm]

/-! ### The invariant -/

namespace Phase

/-- The agent has set the bit and not yet cleared it. -/
def claims : Phase → Bool
  | .writeWait | .writing => true
  | _                     => false

end Phase

namespace System

variable (σ : System)

def readers : Nat := σ.agents.count .reading

def writers : Nat := σ.agents.count .writing

/-- Number of agents that have set the bit. -/
def claims : Nat := σ.agents.countP Phase.claims

/-- The word counts the readers, and one agent at most has set the bit. -/
structure Inv : Prop where
  readers_lt : σ.readers < 2 ^ 31
  claims_le : σ.claims ≤ 1
  word_eq : σ.word.toNat = σ.readers + 2 ^ 31 * σ.claims
  alone : 0 < σ.writers → σ.readers = 0

end System

lemma inv_new (n : Nat) : (System.new n).Inv := by
  have hr : (System.new n).readers = 0 := by simp [System.readers, System.new, List.count_replicate]
  have hc : (System.new n).claims = 0 := by
    simp [System.claims, System.new, List.countP_replicate, Phase.claims]
  refine ⟨by omega, by omega, ?_, fun _ => hr⟩
  rw [hr, hc]
  rfl

variable {word : LockState} {l₁ l₂ : List Phase} {p : Phase}

/-- The numbers of a system, with one agent set apart. -/
lemma readers_split (word : LockState) (l₁ l₂ : List Phase) (p : Phase) :
    (⟨word, l₁ ++ p :: l₂⟩ : System).readers =
      (l₁ ++ l₂).count .reading + if p = .reading then 1 else 0 := by
  simp only [System.readers, List.count_append, List.count_cons, beq_iff_eq]
  omega

lemma writers_split (word : LockState) (l₁ l₂ : List Phase) (p : Phase) :
    (⟨word, l₁ ++ p :: l₂⟩ : System).writers =
      (l₁ ++ l₂).count .writing + if p = .writing then 1 else 0 := by
  simp only [System.writers, List.count_append, List.count_cons, beq_iff_eq]
  omega

lemma claims_split (word : LockState) (l₁ l₂ : List Phase) (p : Phase) :
    (⟨word, l₁ ++ p :: l₂⟩ : System).claims =
      (l₁ ++ l₂).countP Phase.claims + if p.claims = true then 1 else 0 := by
  simp only [System.claims, List.countP_append, List.countP_cons]
  omega

/-- Write guards belong to agents that have set the bit. -/
lemma count_writing_le (l : List Phase) : l.count .writing ≤ l.countP Phase.claims := by
  rw [List.count]
  refine List.countP_mono_left fun p _ h => ?_
  rw [beq_iff_eq] at h
  rw [h]
  rfl

/-- What the invariant says of one agent and the rest: `r` readers, `w` writers and `c` agents
with the bit among the others. -/
lemma inv_split : (⟨word, l₁ ++ p :: l₂⟩ : System).Inv ↔
    (l₁ ++ l₂).count .reading + (if p = .reading then 1 else 0) < 2 ^ 31 ∧
      (l₁ ++ l₂).countP Phase.claims + (if p.claims = true then 1 else 0) ≤ 1 ∧
      word.toNat = (l₁ ++ l₂).count .reading + (if p = .reading then 1 else 0) +
        2 ^ 31 * ((l₁ ++ l₂).countP Phase.claims + if p.claims = true then 1 else 0) ∧
      (0 < (l₁ ++ l₂).count .writing + (if p = .writing then 1 else 0) →
        (l₁ ++ l₂).count .reading + (if p = .reading then 1 else 0) = 0) := by
  constructor
  · rintro ⟨h₁, h₂, h₃, h₄⟩
    rw [readers_split] at h₁ h₃ h₄
    rw [claims_split] at h₂ h₃
    rw [writers_split] at h₄
    exact ⟨h₁, h₂, h₃, h₄⟩
  · rintro ⟨h₁, h₂, h₃, h₄⟩
    refine ⟨?_, ?_, ?_, ?_⟩
    · rwa [readers_split]
    · rwa [claims_split]
    · rwa [readers_split, claims_split]
    · rwa [readers_split, writers_split]

/-- A phase that holds no guard and has not set the bit is like being idle. -/
lemma inv_idle (hr : p ≠ .reading) (hc : p.claims = false) :
    (⟨word, l₁ ++ p :: l₂⟩ : System).Inv ↔ (⟨word, l₁ ++ .idle :: l₂⟩ : System).Inv := by
  have hw : p ≠ .writing := by
    rintro rfl
    cases hc
  have hidle : Phase.idle.claims = false := rfl
  simp [inv_split, hr, hc, hw, hidle]

/-! ### Every access keeps the invariant -/

lemma inv_readAcquire (h : (⟨word, l₁ ++ .idle :: l₂⟩ : System).Inv)
    (hbit : word &&& WRITER = 0) (hmax : word ≠ READERS) :
    (⟨word + 1, l₁ ++ .reading :: l₂⟩ : System).Inv := by
  have hlt := (and_writer_eq_zero word).mp hbit
  have hne : word.toNat ≠ 2 ^ 31 - 1 := fun heq => hmax (BitVec.toNat_inj.mp heq)
  have hadd : (word + 1).toNat = word.toNat + 1 := by
    rw [BitVec.toNat_add]
    exact Nat.mod_eq_of_lt (by simp; omega)
  have hwr := count_writing_le (l₁ ++ l₂)
  simp only [inv_split, Phase.claims, reduceCtorEq, if_true, if_false] at h ⊢
  rw [hadd]
  omega

lemma inv_readDrop (h : (⟨word, l₁ ++ .reading :: l₂⟩ : System).Inv) :
    (⟨word - 1, l₁ ++ .idle :: l₂⟩ : System).Inv := by
  simp only [inv_split, Phase.claims, reduceCtorEq, if_true, if_false] at h ⊢
  have hsub : (word - 1).toNat = word.toNat - 1 := by
    rw [BitVec.toNat_sub]
    simp
    omega
  obtain ⟨h₁, h₂, h₃, h₄⟩ := h
  exact ⟨by omega, h₂, by omega, fun hpos => (h₄ hpos).elim⟩

lemma inv_writeAcquire (h : (⟨word, l₁ ++ .idle :: l₂⟩ : System).Inv)
    (hbit : word &&& WRITER = 0) :
    (⟨word ||| WRITER, l₁ ++ (if word = 0 then .writing else .writeWait) :: l₂⟩ : System).Inv := by
  have hlt := (and_writer_eq_zero word).mp hbit
  have hor := toNat_or_writer hlt
  by_cases hzero : word = 0
  · have hz : word.toNat = 0 := by
      rw [hzero]
      rfl
    rw [if_pos hzero]
    simp only [inv_split, Phase.claims, reduceCtorEq, if_true, if_false] at h ⊢
    omega
  · rw [if_neg hzero]
    simp only [inv_split, Phase.claims, reduceCtorEq, if_true, if_false] at h ⊢
    omega

/-- The readers a writer waited for are gone once the word is the bit alone. -/
lemma inv_writeEnter (h : (⟨WRITER, l₁ ++ .writeWait :: l₂⟩ : System).Inv) :
    (⟨WRITER, l₁ ++ .writing :: l₂⟩ : System).Inv := by
  have hw : WRITER.toNat = 2 ^ 31 := rfl
  simp only [inv_split, Phase.claims, reduceCtorEq, if_true, if_false] at h ⊢
  omega

lemma inv_writeDrop (h : (⟨word, l₁ ++ .writing :: l₂⟩ : System).Inv) :
    (⟨0, l₁ ++ .idle :: l₂⟩ : System).Inv := by
  have hz : (0 : LockState).toNat = 0 := rfl
  simp only [inv_split, Phase.claims, reduceCtorEq, if_true, if_false] at h ⊢
  omega

lemma System.Inv.access (h : (⟨word, l₁ ++ p :: l₂⟩ : System).Inv) (spurious : Bool) :
    (⟨(p.next spurious word).1, l₁ ++ (p.next spurious word).2 :: l₂⟩ : System).Inv := by
  cases p with
  | idle => exact h
  | readLoad =>
    show (⟨word, l₁ ++ .readLoop word :: l₂⟩ : System).Inv
    exact (inv_idle (by simp) rfl).mpr ((inv_idle (by simp) rfl).mp h)
  | readLoop state =>
    have hidle := (inv_idle (by simp) rfl).mp h
    simp only [Phase.next]
    split_ifs with hfree hcas
    · obtain ⟨rfl, -⟩ := hcas
      exact inv_readAcquire hidle hfree.1 hfree.2
    · exact (inv_idle (by simp) rfl).mpr hidle
    · exact (inv_idle (by simp) rfl).mpr hidle
  | reading => exact inv_readDrop h
  | writeLoad =>
    show (⟨word, l₁ ++ .writeLoop word :: l₂⟩ : System).Inv
    exact (inv_idle (by simp) rfl).mpr ((inv_idle (by simp) rfl).mp h)
  | writeLoop state =>
    have hidle := (inv_idle (by simp) rfl).mp h
    simp only [Phase.next]
    by_cases hfree : state &&& WRITER = 0
    · by_cases hcas : word = state ∧ spurious = false
      · rw [if_pos hfree, if_pos hcas]
        obtain ⟨rfl, -⟩ := hcas
        exact inv_writeAcquire hidle hfree
      · rw [if_pos hfree, if_neg hcas]
        exact (inv_idle (by simp) rfl).mpr hidle
    · rw [if_neg hfree]
      exact (inv_idle (by simp) rfl).mpr hidle
  | writeWait =>
    simp only [Phase.next]
    split_ifs with hw
    · subst hw
      exact inv_writeEnter h
    · exact h
  | writing => exact inv_writeDrop h

lemma Step.inv {σ σ' : System} (hstep : Step σ σ') (h : σ.Inv) : σ'.Inv := by
  cases hstep with
  | read => exact (inv_idle (by simp) rfl).mpr h
  | write => exact (inv_idle (by simp) rfl).mpr h
  | access spurious => exact h.access spurious

lemma Reachable.inv {σ : System} (h : Reachable σ) : σ.Inv := by
  obtain ⟨n, hrun⟩ := h
  induction hrun with
  | refl => exact inv_new n
  | tail _ hstep ih => exact hstep.inv ih

/-! ### Exclusion -/

/-- In every interleaving: a write guard is alone, the word is the number of read guards plus
the bit of the one agent that has set it, there are never more readers than fit, and the word a
writer clears with its final store holds nothing but its own bit. -/
theorem exclusion {σ : System} (h : Reachable σ) :
    (∀ l₁ l₂, σ.agents = l₁ ++ .writing :: l₂ → .writing ∉ l₁ ++ l₂ ∧ .reading ∉ l₁ ++ l₂) ∧
      σ.word.toNat = σ.readers + (if ∃ p ∈ σ.agents, p.claims = true then WRITER.toNat else 0) ∧
      σ.agents.countP Phase.claims ≤ 1 ∧
      σ.readers ≤ READERS.toNat ∧ (.writing ∈ σ.agents → σ.word = WRITER) := by
  obtain ⟨hr, hc, hword, halone⟩ := h.inv
  have hwriter : WRITER.toNat = 2 ^ 31 := rfl
  have hpos : 0 < σ.claims ↔ ∃ p ∈ σ.agents, p.claims = true := List.countP_pos_iff
  refine ⟨?_, ?_, hc, Nat.le_of_lt_succ hr, ?_⟩
  · intro l₁ l₂ hl
    obtain ⟨word, agents⟩ := σ
    subst hl
    have hwr := count_writing_le (l₁ ++ l₂)
    rw [readers_split, writers_split] at halone
    rw [claims_split] at hc
    simp only [Phase.claims, reduceCtorEq, if_true, if_false] at halone hc
    constructor
    · rw [← List.count_eq_zero]
      omega
    · rw [← List.count_eq_zero]
      omega
  · rw [hword]
    split_ifs with hex
    · have := hpos.mpr hex
      rw [hwriter]
      omega
    · have : ¬ 0 < σ.claims := fun hlt => hex (hpos.mp hlt)
      omega
  · intro hmem
    have hzero := halone (List.count_pos_iff.mpr hmem)
    have hclaim := hpos.mpr ⟨_, hmem, rfl⟩
    apply BitVec.toNat_inj.mp
    rw [hword, hwriter]
    omega

lemma reachable_waiting : Reachable ⟨WRITER + 1, [.reading, .writeWait]⟩ := by
  have h₁ := @Step.read 0 [] [.idle]
  have h₂ := @Step.access 0 [] [.idle] .readLoad false
  have h₃ := @Step.access 0 [] [.idle] (.readLoop 0) false
  have h₄ := @Step.write 1 [.reading] []
  have h₅ := @Step.access 1 [.reading] [] .writeLoad false
  have h₆ := @Step.access 1 [.reading] [] (.writeLoop 1) false
  exact ⟨2, .head h₁ (.head h₂ (.head h₃ (.head h₄ (.head h₅ (.single h₆)))))⟩

/-- A reader is inside and a writer waits: the word is one and the bit. -/
theorem exclusion_waiting : (WRITER + 1).toNat = 1 + WRITER.toNat ∧
    [Phase.reading, .writeWait].countP Phase.claims ≤ 1 := by
  obtain ⟨-, hword, hclaims, -⟩ := exclusion reachable_waiting
  exact ⟨hword, hclaims⟩

end Mars.Sync.RwLock
