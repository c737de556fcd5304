import Mars.Files.Lookup
import Mathlib.Data.List.Basic

/-!
# Open files

Embedding of `File` of `klib/src/vfs/file.rs`. `read` and `write` load the offset, transfer bytes
there and add the number of bytes to the offset. These are three steps, and the lock of the
directory entry is taken for reading only, so that calls of several threads can be interleaved.
-/

namespace Mars.Files

open Function

inductive Direction where
  | read
  | write
deriving DecidableEq, Repr

/-- The bytes `[start, start + count)` have been read or written. -/
structure Transfer where
  direction : Direction
  start : Nat
  count : Nat
deriving DecidableEq, Repr

/-- Where a call is; `len` is the length of its buffer. -/
inductive FilePc where
  | check (direction : Direction) (len : Nat)
  | load (direction : Direction) (len : Nat)
  | transfer (direction : Direction) (len current : Nat)
  | fetchAdd (direction : Direction) (current bytesCount : Nat)
  | loadSize (newSize bytesCount : Nat)
  /-- In the loop of `write`, with the size read last. -/
  | exchange (newSize bytesCount oldSize : Nat)
  | done (result : Except VfsError Nat)

/-- A file, the size of its inode and the calls of the threads. The list has the transfers of the
calls that have got past `fetch_add`, in this order. -/
structure File (ι : Type) where
  offset : Nat
  readable : Bool
  writable : Bool
  size : Nat
  calls : ι → Option FilePc
  transfers : List Transfer

namespace File

variable {ι : Type}

def new (readable writable : Bool) (size : Nat) : File ι :=
  { offset := 0
    readable := readable
    writable := writable
    size := size
    calls := fun _ => none
    transfers := [] }

variable [DecidableEq ι]

def goto (s : File ι) (i : ι) (pc : FilePc) : File ι :=
  { s with calls := update s.calls i (some pc) }

/-- One step of the call of the thread `i`. If it transfers bytes, `r` is what the file system
returns; `spurious` is a failure of `compare_exchange_weak` without a reason. -/
def advance (s : File ι) (i : ι) (r : Except VfsError Nat) (spurious : Bool) : FilePc → File ι
  | .check .read len =>
    if !s.readable then s.goto i (.done (.error .permissionDenied)) else s.goto i (.load .read len)
  | .check .write len =>
    if !s.writable then s.goto i (.done (.error .permissionDenied)) else s.goto i (.load .write len)
  | .load direction len => s.goto i (.transfer direction len s.offset)
  | .transfer direction _ current =>
    match r with
    | .error e       => s.goto i (.done (.error e))
    | .ok bytesCount => s.goto i (.fetchAdd direction current bytesCount)
  | .fetchAdd direction current bytesCount =>
    let next : FilePc :=
      match direction with
      | .read  => .done (.ok bytesCount)
      | .write => .loadSize ((current + bytesCount) % 2 ^ 64) bytesCount
    { s with
      offset := (s.offset + bytesCount) % 2 ^ 64
      transfers := s.transfers ++ [Transfer.mk direction current bytesCount] }.goto i next
  | .loadSize newSize bytesCount => s.goto i (.exchange newSize bytesCount s.size)
  | .exchange newSize bytesCount oldSize =>
    if oldSize < newSize then
      if s.size = oldSize ∧ !spurious then
        { s with size := newSize }.goto i (.done (.ok bytesCount))
      else s.goto i (.exchange newSize bytesCount s.size)
    else s.goto i (.done (.ok bytesCount))
  | .done _ => { s with calls := update s.calls i none }

inductive Action (ι : Type) where
  | enter (i : ι) (direction : Direction) (len : Nat)
  | advance (i : ι) (r : Except VfsError Nat) (spurious : Bool)

/-- The file system transfers no more bytes than the buffer has. -/
inductive Step (s : File ι) : Action ι → File ι → Prop
  | enter (i : ι) (direction : Direction) (len : Nat) (h : s.calls i = none) :
      Step s (.enter i direction len) (s.goto i (.check direction len))
  | advance (i : ι) (r : Except VfsError Nat) (spurious : Bool) {pc : FilePc}
      (h : s.calls i = some pc)
      (hr : ∀ direction len current n, pc = .transfer direction len current → r = .ok n → n ≤ len) :
      Step s (.advance i r spurious) (s.advance i r spurious pc)

/-- The states of the runs in which every action is allowed. -/
inductive Reach (allowed : File ι → Action ι → Prop) : File ι → Prop
  | new (readable writable : Bool) (size : Nat) : Reach allowed (new readable writable size)
  | step {s s' : File ι} {a : Action ι} (h : Reach allowed s) (ha : allowed s a)
      (hs : Step s a s') : Reach allowed s'

section Run

variable {allowed : File ι → Action ι → Prop} {s : File ι}

lemma Reach.enter (h : Reach allowed s) (i : ι) (direction : Direction) (len : Nat)
    (ha : allowed s (.enter i direction len)) (hi : s.calls i = none) :
    Reach allowed (s.goto i (.check direction len)) :=
  h.step ha (.enter i direction len hi)

lemma Reach.advance (h : Reach allowed s) (i : ι) (r : Except VfsError Nat)
    (ha : allowed s (.advance i r false)) {pc : FilePc} (hi : s.calls i = some pc)
    (hr : ∀ direction len current n, pc = .transfer direction len current → r = .ok n → n ≤ len) :
    Reach allowed (s.advance i r false pc) :=
  h.step ha (.advance i r false hi hr)

end Run

/-! ### The bytes of the transfers -/

end File

def Transfer.Covers (t : Transfer) (b : Nat) : Prop := t.start ≤ b ∧ b < t.start + t.count

namespace File

variable {ι : Type}

/-- The transfers lie one after the other. A transfer of no bytes has no place among them. -/
structure Tiled (s : File ι) : Prop where
  disjoint : s.transfers.Pairwise fun t u => ∀ b, t.Covers b → ¬ u.Covers b
  contiguous : ∀ b, (∃ t ∈ s.transfers, t.Covers b) ↔ b < s.offset
  last : ∀ t, (s.transfers.filter (·.count ≠ 0)).getLast? = some t → t.start + t.count = s.offset

/-- If the action adds to the offset, it transferred nothing or the offset is still the one it
used, and the sum is a `u64`. -/
def OffsetCurrent (s : File ι) (a : Action ι) : Prop :=
  ∀ i r spurious direction current n, a = .advance i r spurious →
    s.calls i = some (.fetchAdd direction current n) →
      n = 0 ∨ (current = s.offset ∧ s.offset + n < 2 ^ 64)

end File

/-- The offset that a call has loaded. -/
def FilePc.current : FilePc → Option Nat
  | .transfer _ _ current => some current
  | .fetchAdd _ current _ => some current
  | _                     => none

namespace File

variable {ι : Type} [DecidableEq ι] {s s' : File ι} {i : ι}

structure Inv (s : File ι) : Prop where
  tiled : s.Tiled
  offset_lt : s.offset < 2 ^ 64
  /-- No call has loaded an offset that is still to come. -/
  current_le : ∀ i pc current, s.calls i = some pc → pc.current = some current → current ≤ s.offset

omit [DecidableEq ι] in
lemma inv_new (readable writable : Bool) (size : Nat) :
    Inv (new readable writable size : File ι) where
  tiled := ⟨List.Pairwise.nil, by simp [new], by simp [new]⟩
  offset_lt := by simp [new]
  current_le := by simp [new]

/-- The call moves on, with no offset or one that has come. -/
lemma Inv.goto (h : s.Inv) {pc : FilePc} (hpc : ∀ current, pc.current = some current →
    current ≤ s.offset) : (s.goto i pc).Inv := by
  refine ⟨⟨h.tiled.disjoint, h.tiled.contiguous, h.tiled.last⟩, h.offset_lt, ?_⟩
  intro j pc' current hj hcurrent
  by_cases hji : j = i
  · rw [File.goto, hji] at hj
    simp only [update_self, Option.some.injEq] at hj
    subst hj
    exact hpc current hcurrent
  · rw [File.goto] at hj
    simp only [update_of_ne hji] at hj
    exact h.current_le j pc' current hj hcurrent

end File

lemma Transfer.not_covers_of_empty {t : Transfer} (h : t.count = 0) (b : Nat) : ¬ t.Covers b := by
  rintro ⟨hb, hb'⟩
  omega

namespace File

variable {ι : Type} {s : File ι} {t : Transfer} {offset : Nat} {calls : ι → Option FilePc}

lemma Tiled.append_empty (h : s.Tiled) (ht : t.count = 0) (hoffset : offset = s.offset) :
    ({ s with offset, transfers := s.transfers ++ [t], calls } : File ι).Tiled := by
  have hnone := Transfer.not_covers_of_empty ht
  refine ⟨?_, ?_, ?_⟩
  · refine List.pairwise_append.mpr ⟨h.disjoint, List.pairwise_singleton _ _, ?_⟩
    rintro u - t' ht' b -
    rw [List.mem_singleton.mp ht']
    exact hnone b
  · intro b
    rw [hoffset, ← h.contiguous]
    simp [or_and_right, exists_or, hnone]
  · intro u hu
    rw [hoffset]
    exact h.last u (by simpa [List.filter_append, ht] using hu)

lemma Tiled.append_next (h : s.Tiled) (ht : t.count ≠ 0) (hstart : t.start = s.offset)
    (hoffset : offset = s.offset + t.count) :
    ({ s with offset, transfers := s.transfers ++ [t], calls } : File ι).Tiled := by
  refine ⟨?_, ?_, ?_⟩
  · refine List.pairwise_append.mpr ⟨h.disjoint, List.pairwise_singleton _ _, ?_⟩
    intro u hu t' ht' b hub htb
    rw [List.mem_singleton.mp ht'] at htb
    have hb := (h.contiguous b).mp ⟨u, hu, hub⟩
    exact absurd (hstart ▸ htb.1) (Nat.not_le.mpr hb)
  · intro b
    have hold := h.contiguous b
    simp only [List.mem_append, List.mem_singleton, or_and_right, exists_or, exists_eq_left, hold]
    rw [Transfer.Covers, hstart, hoffset]
    omega
  · intro u hu
    have hlast : t = u := by simpa [List.filter_append, ht] using hu
    rw [← hlast, hstart, hoffset]

/-- Any other transfer has a byte of one before, or goes past the end of the offsets. -/
lemma Inv.tiled_append_iff (h : s.Inv) (hle : t.start ≤ s.offset) :
    ({ s with
      offset := (s.offset + t.count) % 2 ^ 64
      transfers := s.transfers ++ [t]
      calls } : File ι).Tiled ↔
        t.count = 0 ∨ (t.start = s.offset ∧ s.offset + t.count < 2 ^ 64) := by
  constructor
  · intro htiled
    by_contra hcond
    push Not at hcond
    obtain ⟨hcount, hwrap⟩ := hcond
    by_cases hstart : t.start = s.offset
    · have hcovers : t.Covers (s.offset + t.count - 1) := ⟨by omega, by omega⟩
      have hbyte := (htiled.contiguous (s.offset + t.count - 1)).mp
        ⟨t, List.mem_append_right _ (List.mem_singleton_self _), hcovers⟩
      dsimp only at hbyte
      omega
    · have hcovers : t.Covers t.start := ⟨Nat.le_refl _, by omega⟩
      obtain ⟨u, hu, hucovers⟩ := (h.tiled.contiguous t.start).mpr (by omega)
      have hdisjoint := (List.pairwise_append.mp htiled.disjoint).2.2 u hu t
        (List.mem_singleton_self _)
      exact hdisjoint t.start hucovers hcovers
  · intro hcond
    by_cases hcount : t.count = 0
    · refine h.tiled.append_empty hcount ?_
      rw [hcount, Nat.add_zero, Nat.mod_eq_of_lt h.offset_lt]
    · obtain ⟨hstart, hsum⟩ := hcond.resolve_left hcount
      exact h.tiled.append_next hcount hstart (Nat.mod_eq_of_lt hsum)

/-! ### Every step -/

variable [DecidableEq ι] {s' : File ι} {i : ι}

lemma Inv.fetchAdd (h : s.Inv) {direction : Direction} {current n : Nat}
    (hi : s.calls i = some (.fetchAdd direction current n))
    (hcond : n = 0 ∨ (current = s.offset ∧ s.offset + n < 2 ^ 64)) {pc : FilePc}
    (hpc : pc.current = none) :
    ({ s with
      offset := (s.offset + n) % 2 ^ 64
      transfers := s.transfers ++ [Transfer.mk direction current n] }.goto i pc).Inv := by
  have hle := h.current_le i _ current hi rfl
  have hlt := h.offset_lt
  have hoffset : s.offset ≤ (s.offset + n) % 2 ^ 64 := by
    rcases hcond with rfl | ⟨-, hsum⟩ <;> omega
  refine ⟨(h.tiled_append_iff (t := ⟨direction, current, n⟩) hle).mpr hcond,
    Nat.mod_lt _ (by decide), ?_⟩
  intro j pc' current' hj hcurrent
  by_cases hji : j = i
  · rw [File.goto, hji] at hj
    simp only [update_self, Option.some.injEq] at hj
    rw [← hj, hpc] at hcurrent
    cases hcurrent
  · rw [File.goto] at hj
    simp only [update_of_ne hji] at hj
    exact Nat.le_trans (h.current_le j pc' current' hj hcurrent) hoffset

lemma Inv.advance (h : s.Inv) (r : Except VfsError Nat) (spurious : Bool) {pc : FilePc}
    (hi : s.calls i = some pc) (hcond : s.OffsetCurrent (.advance i r spurious)) :
    (s.advance i r spurious pc).Inv := by
  cases pc with
  | check direction len =>
    cases direction <;> rw [File.advance] <;> split_ifs <;> exact h.goto (by simp [FilePc.current])
  | load direction len =>
    refine h.goto ?_
    rintro current ⟨⟩
    exact Nat.le_refl _
  | transfer direction len current =>
    cases r with
    | error e => exact h.goto (by simp [FilePc.current])
    | ok n =>
      refine h.goto ?_
      rintro _ ⟨⟩
      exact h.current_le i _ current hi rfl
  | fetchAdd direction current n =>
    refine h.fetchAdd hi (hcond i r spurious direction current n rfl hi) ?_
    cases direction <;> rfl
  | loadSize newSize n => exact h.goto (by simp [FilePc.current])
  | exchange newSize n oldSize =>
    rw [File.advance]
    split_ifs
    · have hgoto : (s.goto i (.done (.ok n))).Inv := h.goto (by simp [FilePc.current])
      exact ⟨⟨hgoto.tiled.disjoint, hgoto.tiled.contiguous, hgoto.tiled.last⟩, hgoto.offset_lt,
        hgoto.current_le⟩
    · exact h.goto (by simp [FilePc.current])
    · exact h.goto (by simp [FilePc.current])
  | done result =>
    refine ⟨⟨h.tiled.disjoint, h.tiled.contiguous, h.tiled.last⟩, h.offset_lt, ?_⟩
    intro j pc' current hj hcurrent
    by_cases hji : j = i
    · simp [File.advance, hji] at hj
    · refine h.current_le j pc' current ?_ hcurrent
      simpa [File.advance, hji] using hj

lemma Inv.step (h : s.Inv) {a : Action ι} (hs : Step s a s') (hcond : s.OffsetCurrent a) :
    s'.Inv := by
  cases hs with
  | enter i direction len hi => exact h.goto (by simp [FilePc.current])
  | advance i r spurious hi hr => exact h.advance r spurious hi hcond

lemma Reach.inv (h : Reach OffsetCurrent s) : s.Inv := by
  induction h with
  | new readable writable size => exact inv_new readable writable size
  | step _ ha hs ih => exact ih.step hs ha

/-- As long as every call adds to the offset it used, the transfers lie one after the other and the
offset is the end of the last; and the first that adds to another offset breaks this. -/
theorem Reach.tiled_iff (h : Reach OffsetCurrent s) :
    s.Tiled ∧ ∀ a s', Step s a s' → (s'.Tiled ↔ s.OffsetCurrent a) := by
  have hinv := h.inv
  refine ⟨hinv.tiled, fun a s' hs => ⟨?_, fun hcond => (hinv.step hs hcond).tiled⟩⟩
  rintro htiled i r spurious direction current n rfl hi
  cases hs with
  | advance _ _ _ hi' hr =>
    rw [hi] at hi'
    cases hi'
    have hle := hinv.current_le i _ current hi rfl
    exact (hinv.tiled_append_iff (t := ⟨direction, current, n⟩) hle).mp htiled

/-- Two threads write, of which the second one loads the offset when the first one has added. -/
theorem tiled_of_two_writes : ∃ s : File Bool, Reach OffsetCurrent s ∧
    s.transfers = [⟨.write, 0, 3⟩, ⟨.write, 3, 2⟩] ∧ s.offset = 5 ∧ s.Tiled := by
  have h : Reach OffsetCurrent (_ : File Bool) :=
    (Reach.new true true 0).enter false .write 4 (by simp [OffsetCurrent]) rfl
  have h := h.enter true .write 4 (by simp [OffsetCurrent]) rfl
  have h := h.advance false (.ok 3) (by rintro _ _ _ _ _ _ ⟨⟩ ⟨⟩) rfl (by simp)
  have h := h.advance false (.ok 3) (by rintro _ _ _ _ _ _ ⟨⟩ ⟨⟩) rfl (by simp)
  have h := h.advance true (.ok 2) (by rintro _ _ _ _ _ _ ⟨⟩ ⟨⟩) rfl (by simp)
  have h := h.advance false (.ok 3) (by rintro _ _ _ _ _ _ ⟨⟩ ⟨⟩) rfl
    (by rintro _ _ _ _ ⟨⟩ ⟨⟩; decide)
  have h := h.advance false (.ok 3) (by rintro _ _ _ _ _ _ ⟨⟩ ⟨⟩; exact .inr ⟨rfl, by decide⟩) rfl
    (by simp)
  have h := h.advance true (.ok 2) (by rintro _ _ _ _ _ _ ⟨⟩ ⟨⟩) rfl (by simp)
  have h := h.advance true (.ok 2) (by rintro _ _ _ _ _ _ ⟨⟩ ⟨⟩) rfl
    (by rintro _ _ _ _ ⟨⟩ ⟨⟩; decide)
  have h := h.advance true (.ok 2) (by rintro _ _ _ _ _ _ ⟨⟩ ⟨⟩; exact .inr ⟨rfl, by decide⟩) rfl
    (by simp)
  exact ⟨_, h, rfl, rfl, h.tiled_iff.1⟩

/-- Two threads load the offset before one of them adds to it. -/
theorem not_tiled_after_race : ∃ s : File Bool, Reach (fun _ _ => True) s ∧
    s.transfers = [⟨.write, 0, 1⟩, ⟨.write, 0, 1⟩] ∧ s.offset = 2 ∧ ¬ s.Tiled := by
  have h : Reach (fun _ _ => True) (_ : File Bool) :=
    (Reach.new true true 0).enter false .write 1 trivial rfl
  have h := h.enter true .write 1 trivial rfl
  have h := h.advance false (.ok 1) trivial rfl (by simp)
  have h := h.advance true (.ok 1) trivial rfl (by simp)
  have h := h.advance false (.ok 1) trivial rfl (by simp)
  have h := h.advance true (.ok 1) trivial rfl (by simp)
  have h := h.advance false (.ok 1) trivial rfl (by rintro _ _ _ _ ⟨⟩ ⟨⟩; decide)
  have h := h.advance true (.ok 1) trivial rfl (by rintro _ _ _ _ ⟨⟩ ⟨⟩; decide)
  have h := h.advance false (.ok 1) trivial rfl (by simp)
  have h := h.advance true (.ok 1) trivial rfl (by simp)
  refine ⟨_, h, rfl, rfl, fun htiled => ?_⟩
  have hdisjoint := (List.pairwise_cons.mp htiled.disjoint).1 _ (List.mem_singleton_self _)
  exact hdisjoint 0 ⟨Nat.le_refl _, Nat.one_pos⟩ ⟨Nat.le_refl _, Nat.one_pos⟩

end File

end Mars.Files
