import Mathlib.Algebra.Group.Nat.Defs
import Mathlib.Tactic.Common

/-!
# The entries of the MADT

Embedding of `MadtIter` and `Madt::entries` of `drivers/acpi/src/acpi/madt.rs`. The iterator reads
the type and the length of an entry without a look at what is left of the table, and hands out as
many bytes as the length says. The memory behind the table can be read as well.
-/

namespace Mars.Acpi

/-- The bytes from the start of the table on, with those behind its end. -/
abbrev Table := Nat → UInt8

def sdtHeaderSize : Nat := 36

def headerLen (t : Table) : Nat :=
  (t 4).toNat + 2 ^ 8 * (t 5).toNat + 2 ^ 16 * (t 6).toNat + 2 ^ 24 * (t 7).toNat

structure MadtIter where
  ptr : Nat
  stop : Nat

/-- An entry that is handed out, with its type. -/
structure Entry where
  entryType : UInt8
  start : Nat
  len : Nat
deriving DecidableEq

/-- The bytes that a call reads and its result. -/
structure Step where
  reads : List Nat
  result : Option (Entry × MadtIter)

namespace MadtIter

def next (t : Table) (it : MadtIter) : Step :=
  if it.stop ≤ it.ptr then ⟨[], none⟩
  else
    let entryType := t it.ptr
    let len := t (it.ptr + 1)
    let reads := [it.ptr, it.ptr + 1]
    if len < 2 then ⟨reads, none⟩
    else ⟨reads, some (⟨entryType, it.ptr, len.toNat⟩, { it with ptr := it.ptr + len.toNat })⟩

end MadtIter

/-- `Madt::entries`; the entries come after two words. -/
def entries (t : Table) : MadtIter := ⟨sdtHeaderSize + 8, headerLen t⟩

/-- The bytes that are read and the entries of the whole iteration. -/
structure Run where
  reads : List Nat
  entries : List Entry
deriving DecidableEq

/-- The iterator is called until it has no result. -/
def MadtIter.run (t : Table) : Nat → MadtIter → Option Run
  | 0, _ => none
  | fuel + 1, it =>
    match it.next t with
    | ⟨reads, none⟩          => some ⟨reads, []⟩
    | ⟨reads, some (e, it')⟩ =>
      (MadtIter.run t fuel it').map fun r => ⟨reads ++ r.reads, e :: r.entries⟩

/-! ### Tables that are tiled by their entries -/

/-- From the offset on, each entry ends inside of the table. The iteration may end early at an entry
whose length is too small, but never with a single byte left. -/
inductive Tiled (t : Table) : Nat → Prop
  | done {o : Nat} (h : headerLen t ≤ o) : Tiled t o
  | short {o : Nat} (h : o + 2 ≤ headerLen t) (hlen : t (o + 1) < 2) : Tiled t o
  | entry {o : Nat} (hlen : 2 ≤ t (o + 1)) (h : o + (t (o + 1)).toNat ≤ headerLen t)
      (hrest : Tiled t (o + (t (o + 1)).toNat)) : Tiled t o

/-- Each entry starts where the one before ends. -/
def Consecutive : Nat → List Entry → Prop
  | _, []      => True
  | o, e :: es => e.start = o ∧ Consecutive (o + e.len) es

structure Inside (t : Table) (r : Run) : Prop where
  reads : ∀ o ∈ r.reads, o < headerLen t
  entries : ∀ e ∈ r.entries, sdtHeaderSize + 8 ≤ e.start ∧ e.start + e.len ≤ headerLen t
  length : ∀ e ∈ r.entries, e.len = (t (e.start + 1)).toNat
  consecutive : Consecutive (sdtHeaderSize + 8) r.entries

lemma Consecutive.le_start {o : Nat} {es : List Entry} (h : Consecutive o es) :
    ∀ e ∈ es, o ≤ e.start := by
  induction es generalizing o with
  | nil => simp
  | cons e es ih =>
    obtain ⟨hstart, hrest⟩ := h
    intro e' he'
    cases he' with
    | head      => exact Nat.le_of_eq hstart.symm
    | tail _ he => exact Nat.le_trans (Nat.le_add_right _ _) (ih hrest e' he)

/-- What holds of every iteration, whatever the lengths of the entries are. -/
structure Walked (t : Table) (o : Nat) (r : Run) : Prop where
  length : ∀ e ∈ r.entries, e.len = (t (e.start + 1)).toNat
  consecutive : Consecutive o r.entries

/-- Nothing behind the end of the table is read or handed out. -/
def Run.Within (r : Run) (L : Nat) : Prop :=
  (∀ o ∈ r.reads, o < L) ∧ ∀ e ∈ r.entries, e.start + e.len ≤ L

lemma Run.within_entry {r : Run} {e : Entry} {o L : Nat} (ho : e.start = o) (hlen : 2 ≤ e.len) :
    Run.Within ⟨[o, o + 1] ++ r.reads, e :: r.entries⟩ L ↔ o + e.len ≤ L ∧ r.Within L := by
  subst ho
  simp only [Run.Within, List.cons_append, List.nil_append, List.forall_mem_cons]
  constructor
  · rintro ⟨⟨-, -, hreads⟩, he, hentries⟩
    exact ⟨he, hreads, hentries⟩
  · rintro ⟨he, hreads, hentries⟩
    exact ⟨⟨by omega, by omega, hreads⟩, he, hentries⟩

/-! ### The three cases of a call -/

section Next

variable {t : Table} {it : MadtIter}

lemma MadtIter.next_of_done (h : it.stop ≤ it.ptr) : it.next t = ⟨[], none⟩ := if_pos h

lemma MadtIter.next_of_short (h : ¬ it.stop ≤ it.ptr) (hlen : t (it.ptr + 1) < 2) :
    it.next t = ⟨[it.ptr, it.ptr + 1], none⟩ := by
  simp [next, h, hlen]

lemma MadtIter.next_of_entry (h : ¬ it.stop ≤ it.ptr) (hlen : ¬ t (it.ptr + 1) < 2) :
    it.next t = ⟨[it.ptr, it.ptr + 1], some (⟨t it.ptr, it.ptr, (t (it.ptr + 1)).toNat⟩,
      ⟨it.ptr + (t (it.ptr + 1)).toNat, it.stop⟩)⟩ := by
  simp [next, h, hlen]

end Next

lemma tiled_iff_of_short {t : Table} {o : Nat} (h : ¬ headerLen t ≤ o) (hlen : t (o + 1) < 2) :
    Tiled t o ↔ o + 1 < headerLen t := by
  constructor
  · rintro (hdone | ⟨hshort, -⟩ | ⟨hentry, -, -⟩)
    · exact absurd hdone h
    · exact hshort
    · exact absurd hlen (UInt8.not_lt.mpr hentry)
  · exact fun hnext => .short hnext hlen

lemma tiled_iff_of_entry {t : Table} {o : Nat} (h : ¬ headerLen t ≤ o) (hlen : ¬ t (o + 1) < 2) :
    Tiled t o ↔ o + (t (o + 1)).toNat ≤ headerLen t ∧ Tiled t (o + (t (o + 1)).toNat) := by
  constructor
  · rintro (hdone | ⟨-, hshort⟩ | ⟨-, hend, hrest⟩)
    · exact absurd hdone h
    · exact absurd hshort hlen
    · exact ⟨hend, hrest⟩
  · rintro ⟨hend, hrest⟩
    exact .entry (UInt8.not_lt.mp hlen) hend hrest

lemma MadtIter.run_of_done {t : Table} {o : Nat} (h : headerLen t ≤ o) (fuel : Nat) :
    ∃ r, MadtIter.run t (fuel + 1) ⟨o, headerLen t⟩ = some r ∧ Walked t o r ∧
      (r.Within (headerLen t) ↔ Tiled t o) := by
  refine ⟨⟨[], []⟩, ?_, ⟨by simp, trivial⟩, ?_⟩
  · rw [MadtIter.run, MadtIter.next_of_done h]
  · exact iff_of_true ⟨by simp, by simp⟩ (.done h)

/-- The iteration ends, and it leaves the table unless the entries tile what is left. -/
lemma MadtIter.run_spec (t : Table) (fuel o : Nat) (hfuel : headerLen t ≤ o + fuel) :
    ∃ r, MadtIter.run t (fuel + 1) ⟨o, headerLen t⟩ = some r ∧ Walked t o r ∧
      (r.Within (headerLen t) ↔ Tiled t o) := by
  induction fuel generalizing o with
  | zero => exact run_of_done hfuel 0
  | succ fuel ih =>
    by_cases hdone : headerLen t ≤ o
    · exact run_of_done hdone _
    by_cases hlen : t (o + 1) < 2
    · refine ⟨⟨[o, o + 1], []⟩, ?_, ⟨by simp, trivial⟩, ?_⟩
      · rw [MadtIter.run, MadtIter.next_of_short hdone hlen]
      · rw [tiled_iff_of_short hdone hlen]
        simp only [Run.Within, List.forall_mem_cons, List.not_mem_nil]
        constructor
        · rintro ⟨⟨-, h, -⟩, -⟩
          exact h
        · intro h
          exact ⟨⟨by omega, h, by simp⟩, by simp⟩
    · -- An entry of at least two bytes, so there is less to go.
      have htwo : 2 ≤ (t (o + 1)).toNat := UInt8.le_iff_toNat_le.mp (UInt8.not_lt.mp hlen)
      obtain ⟨r, hrun, hwalked, hiff⟩ := ih (o + (t (o + 1)).toNat) (by omega)
      refine ⟨⟨[o, o + 1] ++ r.reads, ⟨t o, o, (t (o + 1)).toNat⟩ :: r.entries⟩, ?_, ?_, ?_⟩
      · rw [MadtIter.run, MadtIter.next_of_entry hdone hlen]
        simp only [hrun, Option.map_some]
      · refine ⟨?_, rfl, hwalked.consecutive⟩
        simpa using hwalked.length
      · rw [tiled_iff_of_entry hdone hlen, ← hiff]
        exact Run.within_entry rfl htwo

lemma Walked.inside_iff {t : Table} {r : Run} (h : Walked t (sdtHeaderSize + 8) r) :
    Inside t r ↔ r.Within (headerLen t) := by
  constructor
  · intro hin
    exact ⟨hin.reads, fun e he => (hin.entries e he).2⟩
  · rintro ⟨hreads, hentries⟩
    have hstart := h.consecutive.le_start
    exact ⟨hreads, fun e he => ⟨hstart e he, hentries e he⟩, h.length, h.consecutive⟩

/-- The iteration over any table ends after at most as many calls as the table has bytes. It stays
inside of the table exactly if the entries tile the table. -/
theorem entries_inside_iff (t : Table) :
    ∃ r, (entries t).run t (headerLen t + 1) = some r ∧
      (Inside t r ↔ Tiled t (sdtHeaderSize + 8)) := by
  obtain ⟨r, hrun, hwalked, hiff⟩ :=
    MadtIter.run_spec t (headerLen t) (sdtHeaderSize + 8) (Nat.le_add_left _ _)
  exact ⟨r, hrun, hwalked.inside_iff.trans hiff⟩

/-- A table of 46 bytes whose only entry says that it has 80 bytes. -/
def longEntry : Table := fun o =>
  if o = 4 then 46 else if o = 44 then 0x0B else if o = 45 then 80 else 0

theorem longEntry_outside :
    headerLen longEntry = 46 ∧
      ∃ r, (entries longEntry).run longEntry (headerLen longEntry + 1) = some r ∧
        r.entries = [⟨0x0B, 44, 80⟩] ∧ ¬ Inside longEntry r := by
  refine ⟨by decide, ⟨[44, 45], [⟨0x0B, 44, 80⟩]⟩, by decide, rfl, ?_⟩
  intro h
  have hend := (h.entries _ (List.mem_singleton.mpr rfl)).2
  exact absurd hend (by decide)

end Mars.Acpi
