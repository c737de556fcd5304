import Mars.Files.File
import Mathlib.Order.Bounds.Basic

/-!
# The size of an inode

Several files can be open on one inode. Every `write` raises the size of the inode to the end of
what it has written, in a loop with a load and a `compare_exchange_weak` that can fail. No update is
lost: when all calls have come to their end, the size is the greatest end of a write.
-/

namespace Mars.Files

open Function

/-- The files on an inode, with the size that they share. -/
structure InodeFiles (φ ι : Type) where
  size : Nat
  file : φ → File ι

/-- The end of a write whose size has not been set yet. -/
def FilePc.newSize : FilePc → Option Nat
  | .loadSize newSize _   => some newSize
  | .exchange newSize _ _ => some newSize
  | _                     => none

/-- The size that the call read last. -/
def FilePc.oldSize : FilePc → Option Nat
  | .exchange _ _ oldSize => some oldSize
  | _                     => none

namespace InodeFiles

variable {φ ι : Type}

def view (s : InodeFiles φ ι) (f : φ) : File ι := { s.file f with size := s.size }

/-- The calls have no step left but to return. -/
def Finished (s : InodeFiles φ ι) : Prop :=
  ∀ f i pc, (s.file f).calls i = some pc → ∃ result, pc = .done result

/-- The initial size and the ends of the writes. -/
def Ends (size : Nat) (s : InodeFiles φ ι) : Set Nat :=
  {e | e = size ∨ ∃ f, ∃ t ∈ (s.file f).transfers, t.direction = .write ∧ e = t.start + t.count}

variable [DecidableEq φ] [DecidableEq ι]

def put (s : InodeFiles φ ι) (f : φ) (t : File ι) : InodeFiles φ ι :=
  { size := t.size
    file := update s.file f t }

/-- A thread calls `read` or `write` of a file, or its call goes on. What is added to an offset
does not overflow. -/
inductive Step (s : InodeFiles φ ι) : InodeFiles φ ι → Prop
  | enter (f : φ) (i : ι) (direction : Direction) (len : Nat) (h : (s.file f).calls i = none) :
      Step s (s.put f ((s.view f).goto i (.check direction len)))
  | advance (f : φ) (i : ι) (r : Except VfsError Nat) (spurious : Bool) {pc : FilePc}
      (h : (s.file f).calls i = some pc)
      (hsum : ∀ direction current n, pc = .fetchAdd direction current n → current + n < 2 ^ 64) :
      Step s (s.put f ((s.view f).advance i r spurious pc))

/-- The states of runs from the given size on. -/
inductive Reach (size : Nat) : InodeFiles φ ι → Prop
  | new (readable writable : φ → Bool) :
      Reach size ⟨size, fun f => .new (readable f) (writable f) size⟩
  | step {s s' : InodeFiles φ ι} (h : Reach size s) (hs : Step s s') : Reach size s'

/-! ### The invariant -/

structure Inv (size : Nat) (s : InodeFiles φ ι) : Prop where
  /-- The size is an end. -/
  size_mem : s.size ∈ Ends size s
  /-- An end is taken into account, or a call will do it. -/
  ends : ∀ e ∈ Ends size s, e ≤ s.size ∨
    ∃ f i pc, (s.file f).calls i = some pc ∧ pc.newSize = some e
  newSize_mem : ∀ f i pc e, (s.file f).calls i = some pc → pc.newSize = some e → e ∈ Ends size s
  oldSize_le : ∀ f i pc e, (s.file f).calls i = some pc → pc.oldSize = some e → e ≤ s.size

variable {size : Nat} {s s' : InodeFiles φ ι} {f g : φ} {i j : ι} {t : File ι} {pc pc' : FilePc}

omit [DecidableEq φ] [DecidableEq ι] in
lemma inv_new (readable writable : φ → Bool) :
    Inv size (⟨size, fun f => .new (readable f) (writable f) size⟩ : InodeFiles φ ι) where
  size_mem := .inl rfl
  ends := by
    rintro e (rfl | ⟨f, t, ht, -⟩)
    · exact .inl le_rfl
    · cases ht
  newSize_mem := by
    intro f i pc e h
    cases h
  oldSize_le := by
    intro f i pc e h
    cases h

/-- The call of `i` for `f` goes on at `pc`, and the other calls stay where they are. -/
structure Moves (s s' : InodeFiles φ ι) (f : φ) (i : ι) (pc : Option FilePc) : Prop where
  self : (s'.file f).calls i = pc
  others : ∀ g j, ¬ (g = f ∧ j = i) → (s'.file g).calls j = (s.file g).calls j

lemma moves_put (s : InodeFiles φ ι) (f : φ) (i : ι) (pc : Option FilePc)
    (ht : t.calls = update (s.file f).calls i pc) : Moves s (s.put f t) f i pc := by
  refine ⟨?_, ?_⟩
  · simp [put, ht]
  · intro g j hne
    by_cases hg : g = f
    · subst hg
      have hj : j ≠ i := fun hj => hne ⟨rfl, hj⟩
      simp [put, ht, hj]
    · simp [put, hg]

/-- The calls keep track of every end if the one that goes on does. -/
lemma Inv.of_moves {pc : Option FilePc} (h : Inv size s) (hm : Moves s s' f i pc)
    (hle : s.size ≤ s'.size) (hmem : s'.size ∈ Ends size s')
    (hsub : Ends size s ⊆ Ends size s')
    (hends : ∀ e ∈ Ends size s', e ∈ Ends size s ∨ ∃ q, pc = some q ∧ q.newSize = some e)
    (hkept : ∀ q e, (s.file f).calls i = some q → q.newSize = some e →
      e ≤ s'.size ∨ ∃ q', pc = some q' ∧ q'.newSize = some e)
    (hnew : ∀ q e, pc = some q → q.newSize = some e → e ∈ Ends size s')
    (hold : ∀ q e, pc = some q → q.oldSize = some e → e ≤ s'.size) : Inv size s' := by
  refine ⟨hmem, ?_, ?_, ?_⟩
  · intro e he
    rcases hends e he with he | ⟨q, hq, hqe⟩
    · rcases h.ends e he with hes | ⟨g, j, q, hq, hqe⟩
      · exact .inl (hes.trans hle)
      · by_cases hself : g = f ∧ j = i
        · obtain ⟨rfl, rfl⟩ := hself
          rcases hkept q e hq hqe with hes | ⟨q', hq', hqe'⟩
          · exact .inl hes
          · exact .inr ⟨g, j, q', hm.self.trans hq', hqe'⟩
        · exact .inr ⟨g, j, q, (hm.others g j hself).trans hq, hqe⟩
    · exact .inr ⟨f, i, q, hm.self.trans hq, hqe⟩
  · intro g j q e hq hqe
    by_cases hself : g = f ∧ j = i
    · obtain ⟨rfl, rfl⟩ := hself
      exact hnew q e (hm.self.symm.trans hq) hqe
    · exact hsub (h.newSize_mem g j q e ((hm.others g j hself).symm.trans hq) hqe)
  · intro g j q e hq hqe
    by_cases hself : g = f ∧ j = i
    · obtain ⟨rfl, rfl⟩ := hself
      exact hold q e (hm.self.symm.trans hq) hqe
    · exact (h.oldSize_le g j q e ((hm.others g j hself).symm.trans hq) hqe).trans hle

omit [DecidableEq ι] in
lemma ends_put (ht : t.transfers = (s.file f).transfers) : Ends size (s.put f t) = Ends size s := by
  have hfile (g : φ) : ((s.put f t).file g).transfers = (s.file g).transfers := by
    by_cases hg : g = f
    · subst hg
      simp [put, ht]
    · simp [put, hg]
  simp [Ends, hfile]

lemma Inv.idle {pc : Option FilePc} (h : Inv size s)
    (hcalls : t.calls = update (s.file f).calls i pc)
    (hsize : t.size = s.size) (ht : t.transfers = (s.file f).transfers)
    (hold : ∀ q, (s.file f).calls i = some q → q.newSize = none)
    (hpc : ∀ q, pc = some q → q.newSize = none ∧ q.oldSize = none) : Inv size (s.put f t) := by
  have hends : Ends size (s.put f t) = Ends size s := ends_put ht
  have hput : (s.put f t).size = s.size := hsize
  apply h.of_moves (moves_put s f i pc hcalls)
  · exact hput.ge
  · rw [hends, hput]
    exact h.size_mem
  · exact hends.ge
  · intro e he
    exact .inl (hends.le he)
  · intro q e hq hqe
    simp [hold q hq] at hqe
  · intro q e hq hqe
    simp [(hpc q hq).1] at hqe
  · intro q e hq hqe
    simp [(hpc q hq).2] at hqe

lemma Inv.reread {newSize bytesCount : Nat} (h : Inv size s) (hpc : (s.file f).calls i = some pc)
    (hnew : pc.newSize = some newSize) :
    Inv size (s.put f ((s.view f).goto i (.exchange newSize bytesCount s.size))) := by
  have hends : Ends size (s.put f ((s.view f).goto i (.exchange newSize bytesCount s.size))) =
      Ends size s := ends_put rfl
  apply h.of_moves (moves_put s f i (some (.exchange newSize bytesCount s.size)) rfl)
  · exact Nat.le_refl s.size
  · rw [hends]
    exact h.size_mem
  · exact hends.ge
  · intro e he
    exact .inl (hends.le he)
  · intro q e hq hqe
    obtain rfl : pc = q := Option.some.inj (hpc.symm.trans hq)
    exact .inr ⟨_, rfl, hnew.symm.trans hqe⟩
  · rintro q e ⟨⟩ ⟨⟩
    rw [hends]
    exact h.newSize_mem f i pc newSize hpc hnew
  · rintro q e ⟨⟩ ⟨⟩
    exact Nat.le_refl s.size

/-- A call leaves the loop. The size is at least the end of its write then. -/
lemma Inv.settle {newSize bytesCount : Nat} (h : Inv size s) (hpc : (s.file f).calls i = some pc)
    (hnew : pc.newSize = some newSize) (hcalls : t.calls =
      update (s.file f).calls i (some (.done (.ok bytesCount))))
    (ht : t.transfers = (s.file f).transfers)
    (hsize : t.size = newSize ∨ t.size = s.size)
    (hle : s.size ≤ t.size) (hge : newSize ≤ t.size) : Inv size (s.put f t) := by
  have hends : Ends size (s.put f t) = Ends size s := ends_put ht
  apply h.of_moves (moves_put s f i _ hcalls) hle
  · rw [hends]
    change t.size ∈ Ends size s
    rcases hsize with hsize | hsize
    · rw [hsize]
      exact h.newSize_mem f i pc newSize hpc hnew
    · rw [hsize]
      exact h.size_mem
  · exact hends.ge
  · intro e he
    exact .inl (hends.le he)
  · intro q e hq hqe
    obtain rfl : pc = q := Option.some.inj (hpc.symm.trans hq)
    obtain rfl : newSize = e := Option.some.inj (hnew.symm.trans hqe)
    exact .inl hge
  · rintro q e ⟨⟩ ⟨⟩
  · rintro q e ⟨⟩ ⟨⟩

omit [DecidableEq ι] in
lemma mem_ends_put {u : Transfer} (ht : t.transfers = (s.file f).transfers ++ [u]) {e : Nat} :
    e ∈ Ends size (s.put f t) ↔
      e ∈ Ends size s ∨ (u.direction = .write ∧ e = u.start + u.count) := by
  constructor
  · rintro (rfl | ⟨g, v, hv, hw, he⟩)
    · exact .inl (.inl rfl)
    · by_cases hg : g = f
      · subst hg
        simp only [put, update_self, ht, List.mem_append, List.mem_singleton] at hv
        rcases hv with hv | rfl
        · exact .inl (.inr ⟨g, v, hv, hw, he⟩)
        · exact .inr ⟨hw, he⟩
      · simp only [put, update_of_ne hg] at hv
        exact .inl (.inr ⟨g, v, hv, hw, he⟩)
  · rintro ((rfl | ⟨g, v, hv, hw, he⟩) | ⟨hw, he⟩)
    · exact .inl rfl
    · refine .inr ⟨g, v, ?_, hw, he⟩
      by_cases hg : g = f
      · subst hg
        simp [put, ht, hv]
      · simpa [put, hg] using hv
    · exact .inr ⟨f, u, by simp [put, ht], hw, he⟩

/-- A call adds to the offset, and a write has an end from here on. -/
lemma Inv.record {direction : Direction} {current n : Nat} (h : Inv size s)
    (hpc : (s.file f).calls i = some (.fetchAdd direction current n))
    (hsum : current + n < 2 ^ 64) (r : Except VfsError Nat) (spurious : Bool) :
    Inv size (s.put f ((s.view f).advance i r spurious (.fetchAdd direction current n))) := by
  have hends {e : Nat} : e ∈ Ends size
        (s.put f ((s.view f).advance i r spurious (.fetchAdd direction current n))) ↔
      e ∈ Ends size s ∨ (direction = .write ∧ e = current + n) :=
    mem_ends_put (u := ⟨direction, current, n⟩) rfl
  apply h.of_moves (moves_put s f i _ rfl)
  · exact Nat.le_refl s.size
  · exact hends.mpr (.inl h.size_mem)
  · intro e he
    exact hends.mpr (.inl he)
  · intro e he
    rcases hends.mp he with he | ⟨rfl, rfl⟩
    · exact .inl he
    · refine .inr ⟨_, rfl, ?_⟩
      exact congrArg some (Nat.mod_eq_of_lt hsum)
  · intro q e hq hqe
    obtain rfl := Option.some.inj (hpc.symm.trans hq)
    cases hqe
  · rintro q e ⟨⟩ hqe
    cases direction with
    | read => cases hqe
    | write =>
      cases hqe
      rw [Nat.mod_eq_of_lt hsum]
      exact hends.mpr (.inr ⟨rfl, rfl⟩)
  · rintro q e ⟨⟩ hqe
    cases direction <;> cases hqe

/-! ### Runs -/

lemma Inv.advance (h : Inv size s) (hpc : (s.file f).calls i = some pc)
    (hsum : ∀ direction current n, pc = .fetchAdd direction current n → current + n < 2 ^ 64)
    (r : Except VfsError Nat) (spurious : Bool) :
    Inv size (s.put f ((s.view f).advance i r spurious pc)) := by
  have hidle {pc' : Option FilePc} {t : File ι} (hold : pc.newSize = none)
      (hcalls : t.calls = update (s.file f).calls i pc') (hsize : t.size = s.size)
      (ht : t.transfers = (s.file f).transfers)
      (hnew : ∀ q, pc' = some q → q.newSize = none ∧ q.oldSize = none) :
      Inv size (s.put f t) := by
    apply h.idle hcalls hsize ht
    · intro q hq
      obtain rfl := Option.some.inj (hpc.symm.trans hq)
      exact hold
    · exact hnew
  cases pc with
  | check direction len =>
    cases direction with
    | read =>
      simp only [File.advance]
      split <;> exact hidle rfl rfl rfl rfl (by rintro q ⟨⟩; exact ⟨rfl, rfl⟩)
    | write =>
      simp only [File.advance]
      split <;> exact hidle rfl rfl rfl rfl (by rintro q ⟨⟩; exact ⟨rfl, rfl⟩)
  | load direction len => exact hidle rfl rfl rfl rfl (by rintro q ⟨⟩; exact ⟨rfl, rfl⟩)
  | transfer direction len current =>
    cases r with
    | error e => exact hidle rfl rfl rfl rfl (by rintro q ⟨⟩; exact ⟨rfl, rfl⟩)
    | ok n => exact hidle rfl rfl rfl rfl (by rintro q ⟨⟩; exact ⟨rfl, rfl⟩)
  | fetchAdd direction current n => exact h.record hpc (hsum direction current n rfl) r spurious
  | loadSize newSize n => exact h.reread hpc rfl
  | exchange newSize n oldSize =>
    simp only [File.advance]
    split_ifs with hlt hcas
    · have hsize : s.size = oldSize := hcas.1
      exact h.settle hpc rfl rfl rfl (.inl rfl) (hsize ▸ hlt.le) le_rfl
    · exact h.reread hpc rfl
    · have hold := h.oldSize_le f i _ oldSize hpc rfl
      exact h.settle hpc rfl rfl rfl (.inr rfl) (Nat.le_refl s.size)
        ((Nat.le_of_not_lt hlt).trans hold)
  | done result => exact hidle rfl rfl rfl rfl (by rintro q ⟨⟩)

lemma Inv.step (h : Inv size s) (hs : Step s s') : Inv size s' := by
  cases hs with
  | enter f i direction len hi =>
    refine h.idle (t := (s.view f).goto i (.check direction len)) rfl rfl rfl ?_ ?_
    · intro q hq
      cases hi.symm.trans hq
    · rintro q ⟨⟩
      exact ⟨rfl, rfl⟩
  | advance f i r spurious hpc hsum => exact h.advance hpc hsum r spurious

lemma Reach.inv (h : Reach size s) : Inv size s := by
  induction h with
  | new readable writable => exact inv_new readable writable
  | step _ hs ih => exact ih.step hs

/-- Only an exchange changes the size, and what it writes is greater than what it expects. -/
lemma Step.size_le (hs : Step s s') : s.size ≤ s'.size := by
  cases hs with
  | enter f i direction len hi => exact Nat.le_refl s.size
  | @advance f i r spurious pc hpc hsum =>
    cases pc with
    | check direction len => cases direction <;> (simp only [File.advance]; split <;> rfl)
    | transfer direction len current => cases r <;> exact Nat.le_refl s.size
    | exchange newSize n oldSize =>
      simp only [File.advance]
      split_ifs with hlt hcas
      · have hsize : s.size = oldSize := hcas.1
        exact hsize ▸ hlt.le
      · exact Nat.le_refl s.size
      · exact Nat.le_refl s.size
    | load | fetchAdd | loadSize | done => exact Nat.le_refl s.size

lemma Reach.advance {s : InodeFiles φ Unit} (h : Reach size s) (f : φ) (n : Nat)
    (hpc : (s.file f).calls () = some pc)
    (hsum : ∀ direction current n, pc = .fetchAdd direction current n → current + n < 2 ^ 64) :
    Reach size (s.put f ((s.view f).advance () (.ok n) false pc)) :=
  h.step (.advance f () (.ok n) false hpc hsum)

/-- The size never decreases, and when the calls have finished it is the greatest end. -/
theorem Reach.isGreatest_size (h : Reach size s) :
    (∀ s', Step s s' → s.size ≤ s'.size) ∧ (s.Finished → IsGreatest (Ends size s) s.size) := by
  refine ⟨fun s' hs => hs.size_le, fun hfin => ⟨h.inv.size_mem, ?_⟩⟩
  intro e he
  rcases h.inv.ends e he with hle | ⟨f, i, pc, hpc, hnew⟩
  · exact hle
  · obtain ⟨result, rfl⟩ := hfin f i pc hpc
    cases hnew

/-- The exchange of the second write fails, since the first write has set the size meanwhile. -/
theorem isGreatest_size_race : ∃ s : InodeFiles Bool Unit, Reach 0 s ∧ s.Finished ∧ s.size = 5 ∧
    IsGreatest (Ends 0 s) s.size := by
  have h : Reach 0 (_ : InodeFiles Bool Unit) := .new (fun _ => true) (fun _ => true)
  have h := h.step (.enter false () .write 5 rfl)
  have h := h.step (.enter true () .write 3 rfl)
  have h := h.advance false 5 rfl (by simp)
  have h := h.advance true 3 rfl (by simp)
  have h := h.advance false 5 rfl (by simp)
  have h := h.advance true 3 rfl (by simp)
  have h := h.advance false 5 rfl (by simp)
  have h := h.advance true 3 rfl (by simp)
  have h := h.advance false 5 rfl (by rintro _ _ _ ⟨⟩; decide)
  have h := h.advance true 3 rfl (by rintro _ _ _ ⟨⟩; decide)
  have h := h.advance false 5 rfl (by simp)
  have h := h.advance true 3 rfl (by simp)
  have h := h.advance false 5 rfl (by simp)
  have h := h.advance true 3 rfl (by simp)
  have h := h.advance true 3 rfl (by simp)
  refine ⟨_, h, ?fin, rfl, h.isGreatest_size.2 ?fin⟩
  intro f i pc hpc
  cases f with
  | false => exact ⟨.ok 5, (Option.some.inj hpc).symm⟩
  | true => exact ⟨.ok 3, (Option.some.inj hpc).symm⟩

end InodeFiles

end Mars.Files
