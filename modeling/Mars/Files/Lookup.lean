import Mathlib.Algebra.Group.Nat.Defs
import Mathlib.Logic.Function.Basic
import Mathlib.Logic.Relation
import Mathlib.Tactic.Common

/-!
# Looking up paths

Embedding of `Vfs::lookup` of `klib/src/vfs/mod.rs`. Directory entries form a tree that is a cache
of what the file system has answered; an entry has a weak reference to its parent. The cache-free
resolution asks the file system only.
-/

namespace Mars.Files

open Function

inductive VfsError where
  | notFound
  | existsAlready
  | notADirectory
  | isADirectory
  | permissionDenied
  | io
  | outOfSpace
deriving DecidableEq, Repr

inductive FileType where
  | normal
  | directory
deriving DecidableEq, Repr

/-- A file system whose answers do not change; `I` is the type of its inodes. -/
structure FileSystem (I : Type) where
  fileType : I → FileType
  lookupChild : I → String → Except VfsError I

structure DirEntry (I : Type) where
  name : String
  inode : I
  /-- `none` is a weak reference to nothing. An entry stays in the map of its parent, and the root
  in `Vfs`, so the other references can always be upgraded. -/
  parent : Option Nat
  children : String → Option Nat

/-- The root and the entries. An `Arc` is the number of an entry; `count` of them exist. -/
structure Vfs (I : Type) where
  root : Nat
  entry : Nat → DirEntry I
  count : Nat

/-- `split("/")`. -/
def parts (path : String) : List String := (path.toList.splitOn '/').map String.ofList

/-- `starts_with("/")`. -/
def startsWithSlash (path : String) : Bool := path.toList.head? = some '/'

namespace Vfs

variable {I : Type}

def new (name : String) (inode : I) : Vfs I :=
  { root := 0
    entry := fun _ => ⟨name, inode, none, fun _ => none⟩
    count := 1 }

def insertChild (v : Vfs I) (parent : Nat) (name : String) (inode : I) : Vfs I :=
  let old := v.entry parent
  let children := update old.children name (some v.count)
  { v with
    entry := update (update v.entry parent { old with children }) v.count
      ⟨name, inode, some parent, fun _ => none⟩
    count := v.count + 1 }

def lookupChild (v : Vfs I) (fs : FileSystem I) (parent : Nat) (name : String) :
    Except VfsError Nat × Vfs I :=
  if fs.fileType (v.entry parent).inode ≠ .directory then (.error .notADirectory, v)
  else
    match (v.entry parent).children name with
    | some child => (.ok child, v)
    | none       =>
      match fs.lookupChild (v.entry parent).inode name with
      | .error e  => (.error e, v)
      | .ok inode =>
        -- the map is read again, now with the lock for writing
        match (v.entry parent).children name with
        | some child => (.ok child, v)
        | none       => (.ok v.count, v.insertChild parent name inode)

/-- One round of the loop of `lookup`. -/
def lookupPart (v : Vfs I) (fs : FileSystem I) (current : Nat) (part : String) :
    Except VfsError Nat × Vfs I :=
  if part = "" ∨ part = "." then (.ok current, v)
  else if part = ".." then
    match (v.entry current).parent with
    | some parent => (.ok parent, v)
    | none        => (.ok current, v)
  else v.lookupChild fs current part

def lookupParts (v : Vfs I) (fs : FileSystem I) (current : Nat) :
    List String → Except VfsError Nat × Vfs I
  | []            => (.ok current, v)
  | part :: parts =>
    match v.lookupPart fs current part with
    | (.ok next, v') => lookupParts v' fs next parts
    | (.error e, v') => (.error e, v')

def lookup (v : Vfs I) (fs : FileSystem I) (path : String) (pwd : Option Nat) :
    Except VfsError Nat × Vfs I :=
  let current := if startsWithSlash path then v.root else pwd.getD v.root
  v.lookupParts fs current (parts path)

end Vfs

/-! ### Resolution without a cache -/

/-- A place in the tree of names: the names from the root to it, the last one first, each with the
inode that the file system has for it. -/
abbrev Place (I : Type) : Type := List (String × I)

namespace FileSystem

variable {I : Type}

def inodeAt (root : I) : Place I → I
  | []          => root
  | (_, i) :: _ => i

def walkPart (fs : FileSystem I) (root : I) (p : Place I) (part : String) :
    Except VfsError (Place I) :=
  if part = "" ∨ part = "." then .ok p
  else if part = ".." then .ok p.tail
  else if fs.fileType (inodeAt root p) ≠ .directory then .error .notADirectory
  else
    match fs.lookupChild (inodeAt root p) part with
    | .error e => .error e
    | .ok i    => .ok ((part, i) :: p)

def walk (fs : FileSystem I) (root : I) (p : Place I) : List String → Except VfsError (Place I)
  | []            => .ok p
  | part :: parts =>
    match fs.walkPart root p part with
    | .error e => .error e
    | .ok q    => fs.walk root q parts

/-- The place of a path; `[]` is the root. -/
def resolve (fs : FileSystem I) (root : I) (path : String) (pwd : Option (Place I)) :
    Except VfsError (Place I) :=
  fs.walk root (if startsWithSlash path then [] else pwd.getD []) (parts path)

end FileSystem

/-! ### Runs -/

/-- The cache after some lookups, and the entries they have returned, each with the place that the
cache-free resolution of the same path gives. -/
structure Session (I : Type) where
  vfs : Vfs I
  found : List (Nat × Place I)

namespace Session

variable {I : Type}

def new (name : String) (root : I) : Session I := ⟨.new name root, []⟩

def lookup (s : Session I) (fs : FileSystem I) (root : I) (path : String)
    (pwd : Option (Nat × Place I)) : Session I :=
  let (r, vfs) := s.vfs.lookup fs path (pwd.map Prod.fst)
  match r, fs.resolve root path (pwd.map Prod.snd) with
  | .ok d, .ok p => ⟨vfs, (d, p) :: s.found⟩
  | _, _         => ⟨vfs, s.found⟩

/-- A lookup, from the root or from an entry that has been returned before. -/
inductive Step (fs : FileSystem I) (root : I) (s : Session I) : Session I → Prop
  | lookup (path : String) (pwd : Option (Nat × Place I)) (h : ∀ x ∈ pwd, x ∈ s.found) :
      Step fs root s (s.lookup fs root path pwd)

def Steps (fs : FileSystem I) (root : I) : Session I → Session I → Prop :=
  Relation.ReflTransGen (Step fs root)

end Session

namespace Vfs

variable {I : Type} {fs : FileSystem I} {v v' v'' : Vfs I} {d d' : Nat} {p q : Place I}

/-! ### Entries and places -/

/-- The entry is found at the place if one goes down from the root. -/
inductive At (v : Vfs I) : Nat → Place I → Prop
  | root : At v v.root []
  | child {d j : Nat} {p : Place I} {name : String} (h : At v d p)
      (hj : (v.entry d).children name = some j) : At v j ((name, (v.entry j).inode) :: p)

lemma At.inode (h : v.At d p) :
    (v.entry d).inode = FileSystem.inodeAt (v.entry v.root).inode p := by
  cases h with
  | root => rfl
  | child h hj => rfl

/-- The links of the tree fit together, and the file system has given the inodes. -/
structure Wf (fs : FileSystem I) (v : Vfs I) : Prop where
  root_lt : v.root < v.count
  root_parent : (v.entry v.root).parent = none
  child_lt : ∀ d name j, d < v.count → (v.entry d).children name = some j → j < v.count
  child_name : ∀ d name j, d < v.count → (v.entry d).children name = some j →
    (v.entry j).name = name
  child_parent : ∀ d name j, d < v.count → (v.entry d).children name = some j →
    (v.entry j).parent = some d
  child_inode : ∀ d name j, d < v.count → (v.entry d).children name = some j →
    fs.lookupChild (v.entry d).inode name = .ok (v.entry j).inode
  placed : ∀ d, d < v.count → ∃ p, v.At d p

lemma wf_new (name : String) (inode : I) : Wf fs (new name inode) where
  root_lt := Nat.one_pos
  root_parent := rfl
  child_lt := by simp [new]
  child_name := by simp [new]
  child_parent := by simp [new]
  child_inode := by simp [new]
  placed := by
    intro d hd
    obtain rfl : d = 0 := Nat.lt_one_iff.mp hd
    exact ⟨[], At.root⟩

lemma Wf.at_lt (hwf : Wf fs v) (h : v.At d p) : d < v.count := by
  induction h with
  | root => exact hwf.root_lt
  | child _ hj ih => exact hwf.child_lt _ _ _ ih hj

lemma At.entry_unique (h : v.At d p) (h' : v.At d' p) : d = d' := by
  induction h generalizing d' with
  | root =>
    cases h'
    rfl
  | child _ hj ih =>
    generalize hx : (v.entry _).inode = x at h'
    cases h' with
    | child h' hj' =>
      obtain rfl := ih h'
      rw [hj] at hj'
      exact Option.some.inj hj'

/-- Nothing is lost: entries stay, and the maps only grow. -/
structure Extends (v v' : Vfs I) : Prop where
  root : v'.root = v.root
  count : v.count ≤ v'.count
  inode : ∀ d, d < v.count → (v'.entry d).inode = (v.entry d).inode
  children : ∀ d name j, d < v.count → (v.entry d).children name = some j →
    (v'.entry d).children name = some j

lemma Extends.refl (v : Vfs I) : v.Extends v :=
  ⟨rfl, Nat.le_refl _, fun _ _ => rfl, fun _ _ _ _ => id⟩

lemma Extends.trans (h : v.Extends v') (h' : v'.Extends v'') : v.Extends v'' where
  root := h'.root.trans h.root
  count := Nat.le_trans h.count h'.count
  inode := fun d hd => (h'.inode d (Nat.lt_of_lt_of_le hd h.count)).trans (h.inode d hd)
  children := fun d name j hd hj =>
    h'.children d name j (Nat.lt_of_lt_of_le hd h.count) (h.children d name j hd hj)

lemma Extends.root_inode (h : v.Extends v') (hwf : Wf fs v) :
    (v'.entry v'.root).inode = (v.entry v.root).inode := by
  rw [h.root]
  exact h.inode _ hwf.root_lt

lemma Extends.at (h : v.Extends v') (hwf : Wf fs v) (hat : v.At d p) : v'.At d p := by
  induction hat with
  | root =>
    rw [← h.root]
    exact At.root
  | child hat hj ih =>
    rw [← h.inode _ (hwf.child_lt _ _ _ (hwf.at_lt hat) hj)]
    exact At.child ih (h.children _ _ _ (hwf.at_lt hat) hj)

/-! ### A new entry -/

section Insert

variable {name : String} {inode : I}
variable {j : Nat}

lemma entry_insertChild_count : (v.insertChild d name inode).entry v.count =
    ⟨name, inode, some d, fun _ => none⟩ :=
  update_self ..

lemma entry_insertChild_self (hd : d < v.count) : (v.insertChild d name inode).entry d =
    { v.entry d with children := update (v.entry d).children name (some v.count) } := by
  rw [insertChild]
  dsimp only
  rw [update_of_ne (Nat.ne_of_lt hd), update_self]

lemma entry_insertChild_of_ne (hj : j < v.count) (hne : j ≠ d) :
    (v.insertChild d name inode).entry j = v.entry j := by
  rw [insertChild]
  dsimp only
  rw [update_of_ne (Nat.ne_of_lt hj), update_of_ne hne]

lemma extends_insertChild (hd : d < v.count) (hnone : (v.entry d).children name = none) :
    v.Extends (v.insertChild d name inode) := by
  refine ⟨rfl, Nat.le_succ _, ?_, ?_⟩
  · intro j hj
    by_cases hne : j = d
    · rw [hne, entry_insertChild_self hd]
    · rw [entry_insertChild_of_ne hj hne]
  · intro j n k hj hk
    by_cases hne : j = d
    · subst hne
      rw [entry_insertChild_self hd]
      have hn : n ≠ name := by
        rintro rfl
        rw [hnone] at hk
        cases hk
      exact (update_of_ne hn ..).trans hk
    · rw [entry_insertChild_of_ne hj hne]
      exact hk

lemma child_insertChild (hd : d < v.count) {k : Nat} {n : String}
    (hj : j < (v.insertChild d name inode).count)
    (hk : ((v.insertChild d name inode).entry j).children n = some k) :
    (j = d ∧ n = name ∧ k = v.count) ∨ (j < v.count ∧ (v.entry j).children n = some k) := by
  by_cases hnew : j = v.count
  · rw [hnew, entry_insertChild_count] at hk
    cases hk
  have hlt := Nat.lt_of_le_of_ne (Nat.le_of_lt_succ hj) hnew
  by_cases hne : j = d
  · subst hne
    rw [entry_insertChild_self hd] at hk
    by_cases hn : n = name
    · subst hn
      simp only [update_self, Option.some.injEq] at hk
      exact .inl ⟨rfl, rfl, hk.symm⟩
    · simp only [update_of_ne hn] at hk
      exact .inr ⟨hlt, hk⟩
  · rw [entry_insertChild_of_ne hlt hne] at hk
    exact .inr ⟨hlt, hk⟩

lemma entry_insertChild_of_lt (hd : d < v.count) (hj : j < v.count) :
    ((v.insertChild d name inode).entry j).name = (v.entry j).name ∧
      ((v.insertChild d name inode).entry j).parent = (v.entry j).parent ∧
      ((v.insertChild d name inode).entry j).inode = (v.entry j).inode := by
  by_cases hne : j = d
  · rw [hne, entry_insertChild_self hd]
    exact ⟨rfl, rfl, rfl⟩
  · rw [entry_insertChild_of_ne hj hne]
    exact ⟨rfl, rfl, rfl⟩

lemma Wf.insertChild (hwf : Wf fs v) (hat : v.At d p)
    (hnone : (v.entry d).children name = none)
    (hinode : fs.lookupChild (v.entry d).inode name = .ok inode) :
    Wf fs (v.insertChild d name inode) ∧
      (v.insertChild d name inode).At v.count ((name, inode) :: p) := by
  have hd := hwf.at_lt hat
  have hext : v.Extends (v.insertChild d name inode) := extends_insertChild hd hnone
  have hchild : ((v.insertChild d name inode).entry d).children name = some v.count := by
    rw [entry_insertChild_self hd]
    exact update_self ..
  have hnew : (v.insertChild d name inode).At v.count ((name, inode) :: p) := by
    have h := At.child (hext.at hwf hat) hchild
    rwa [entry_insertChild_count] at h
  refine ⟨⟨Nat.lt_succ_of_lt hwf.root_lt, ?_, ?_, ?_, ?_, ?_, ?_⟩, hnew⟩
  · exact (entry_insertChild_of_lt hd hwf.root_lt).2.1.trans hwf.root_parent
  · intro j n k hj hk
    rcases child_insertChild hd hj hk with ⟨-, -, rfl⟩ | ⟨hj, hk⟩
    · exact Nat.lt_succ_self _
    · exact Nat.lt_succ_of_lt (hwf.child_lt j n k hj hk)
  · intro j n k hj hk
    rcases child_insertChild hd hj hk with ⟨rfl, rfl, rfl⟩ | ⟨hj, hk⟩
    · rw [entry_insertChild_count]
    · rw [(entry_insertChild_of_lt hd (hwf.child_lt j n k hj hk)).1]
      exact hwf.child_name j n k hj hk
  · intro j n k hj hk
    rcases child_insertChild hd hj hk with ⟨rfl, rfl, rfl⟩ | ⟨hj, hk⟩
    · rw [entry_insertChild_count]
    · rw [(entry_insertChild_of_lt hd (hwf.child_lt j n k hj hk)).2.1]
      exact hwf.child_parent j n k hj hk
  · intro j n k hj hk
    rcases child_insertChild hd hj hk with ⟨rfl, rfl, rfl⟩ | ⟨hj, hk⟩
    · rw [entry_insertChild_count, (entry_insertChild_of_lt hd hd).2.2]
      exact hinode
    · rw [(entry_insertChild_of_lt hd (hwf.child_lt j n k hj hk)).2.2,
        (entry_insertChild_of_lt hd hj).2.2]
      exact hwf.child_inode j n k hj hk
  · intro j hj
    by_cases hjnew : j = v.count
    · exact ⟨_, hjnew ▸ hnew⟩
    · obtain ⟨q, hq⟩ := hwf.placed j (Nat.lt_of_le_of_ne (Nat.le_of_lt_succ hj) hjnew)
      exact ⟨q, hext.at hwf hq⟩

end Insert

/-! ### Lookups and resolution -/

/-- A lookup in `v` answers as the resolution does, and leaves a tree that has all of `v`. -/
inductive Follows (fs : FileSystem I) (v : Vfs I) :
    Except VfsError Nat × Vfs I → Except VfsError (Place I) → Prop
  | ok {d : Nat} {v' : Vfs I} {p : Place I} (hwf : Wf fs v') (hext : v.Extends v')
      (hat : v'.At d p) : Follows fs v (.ok d, v') (.ok p)
  | error {e : VfsError} {v' : Vfs I} (hwf : Wf fs v') (hext : v.Extends v') :
      Follows fs v (.error e, v') (.error e)

lemma Follows.of_extends {r : Except VfsError Nat × Vfs I} {x : Except VfsError (Place I)}
    (h : v.Extends v') (hf : Follows fs v' r x) : Follows fs v r x := by
  cases hf with
  | ok hwf hext hat => exact .ok hwf (h.trans hext) hat
  | error hwf hext => exact .error hwf (h.trans hext)

lemma lookupChild_follows (hwf : Wf fs v) (hat : v.At d p) {part : String}
    (h₁ : ¬ (part = "" ∨ part = ".")) (h₂ : part ≠ "..") :
    Follows fs v (v.lookupChild fs d part) (fs.walkPart (v.entry v.root).inode p part) := by
  have hd := hwf.at_lt hat
  rw [FileSystem.walkPart, if_neg h₁, if_neg h₂, ← hat.inode, lookupChild]
  split_ifs with hdir
  · exact .error hwf (.refl v)
  · cases hchild : (v.entry d).children part with
    | some j =>
      rw [hwf.child_inode d part j hd hchild]
      exact .ok hwf (.refl v) (hat.child hchild)
    | none =>
      cases hlookup : fs.lookupChild (v.entry d).inode part with
      | error e => exact .error hwf (.refl v)
      | ok i =>
        obtain ⟨hwf', hat'⟩ := hwf.insertChild hat hchild hlookup
        exact .ok hwf' (extends_insertChild hd hchild) hat'

lemma At.parent (hwf : Wf fs v) (hat : v.At d p) :
    ((v.entry d).parent = none ∧ p = []) ∨ ∃ d', (v.entry d).parent = some d' ∧ v.At d' p.tail := by
  cases hat with
  | root => exact .inl ⟨hwf.root_parent, rfl⟩
  | child h hj => exact .inr ⟨_, hwf.child_parent _ _ _ (hwf.at_lt h) hj, h⟩

lemma lookupPart_follows (hwf : Wf fs v) (hat : v.At d p) (part : String) :
    Follows fs v (v.lookupPart fs d part) (fs.walkPart (v.entry v.root).inode p part) := by
  by_cases h₁ : part = "" ∨ part = "."
  · rw [lookupPart, FileSystem.walkPart, if_pos h₁, if_pos h₁]
    exact .ok hwf (.refl v) hat
  by_cases h₂ : part = ".."
  · rw [lookupPart, FileSystem.walkPart, if_neg h₁, if_neg h₁, if_pos h₂, if_pos h₂]
    rcases hat.parent hwf with ⟨hparent, rfl⟩ | ⟨d', hparent, hat'⟩
    · rw [hparent]
      exact .ok hwf (.refl v) hat
    · rw [hparent]
      exact .ok hwf (.refl v) hat'
  · rw [lookupPart, if_neg h₁, if_neg h₂]
    exact lookupChild_follows hwf hat h₁ h₂

lemma lookupParts_follows (hwf : Wf fs v) (hat : v.At d p) (parts : List String) :
    Follows fs v (v.lookupParts fs d parts) (fs.walk (v.entry v.root).inode p parts) := by
  induction parts generalizing v d p with
  | nil => exact .ok hwf (.refl v) hat
  | cons part parts ih =>
    have hpart := lookupPart_follows hwf hat part
    rw [lookupParts, FileSystem.walk]
    generalize v.lookupPart fs d part = r at hpart
    generalize fs.walkPart (v.entry v.root).inode p part = x at hpart
    cases hpart with
    | ok hwf' hext hat' =>
      have hrest := (ih hwf' hat').of_extends hext
      rwa [hext.root_inode hwf] at hrest
    | error hwf' hext => exact .error hwf' hext

/-! ### Lookups again -/

lemma At.exists_child {name : String} {i : I} (h : v.At d ((name, i) :: p)) :
    ∃ d', v.At d' p ∧ (v.entry d').children name = some d := by
  cases h with
  | child h hj => exact ⟨_, h, hj⟩

/-- If the entry is there, it is the answer, and nothing changes. -/
lemma lookupPart_of_at (hwf : Wf fs v) (hat : v.At d p) (hat' : v.At d' q) {part : String}
    (hwalk : fs.walkPart (v.entry v.root).inode p part = .ok q) :
    v.lookupPart fs d part = (.ok d', v) := by
  by_cases h₁ : part = "" ∨ part = "."
  · rw [FileSystem.walkPart, if_pos h₁] at hwalk
    cases hwalk
    rw [lookupPart, if_pos h₁, hat.entry_unique hat']
  by_cases h₂ : part = ".."
  · rw [FileSystem.walkPart, if_neg h₁, if_pos h₂] at hwalk
    cases hwalk
    rw [lookupPart, if_neg h₁, if_pos h₂]
    rcases hat.parent hwf with ⟨hparent, rfl⟩ | ⟨d'', hparent, hat''⟩
    · rw [hparent, hat.entry_unique hat']
    · rw [hparent, hat''.entry_unique hat']
  · rw [FileSystem.walkPart, if_neg h₁, if_neg h₂, ← hat.inode] at hwalk
    rw [lookupPart, if_neg h₁, if_neg h₂, lookupChild]
    split_ifs at hwalk ⊢ with hdir
    cases hlookup : fs.lookupChild (v.entry d).inode part with
    | error e =>
      rw [hlookup] at hwalk
      cases hwalk
    | ok i =>
      rw [hlookup] at hwalk
      cases hwalk
      obtain ⟨d'', hat'', hchild⟩ := hat'.exists_child
      rw [hat''.entry_unique hat] at hchild
      rw [hchild]

/-- What has been looked up once is found in every later tree. -/
lemma lookupParts_again (hwf : Wf fs v) (hat : v.At d p) {parts : List String}
    (h : v.lookupParts fs d parts = (.ok d', v')) (hext : v'.Extends v'') (hwf'' : Wf fs v'') :
    v''.lookupParts fs d parts = (.ok d', v'') := by
  induction parts generalizing v d p with
  | nil =>
    cases h
    rfl
  | cons part parts ih =>
    have hpart := lookupPart_follows hwf hat part
    rw [lookupParts] at h ⊢
    rcases hr : v.lookupPart fs d part with ⟨r, v₁⟩
    rw [hr] at h hpart
    cases hx : fs.walkPart (v.entry v.root).inode p part with
    | error e =>
      rw [hx] at hpart
      cases hpart
      cases h
    | ok q =>
      rw [hx] at hpart
      cases hpart with
      | ok hwf₁ hext₁ hat₁ =>
        -- the rest of the lookup only adds to the tree
        have hrest := lookupParts_follows hwf₁ hat₁ parts
        rw [show v₁.lookupParts fs _ parts = (.ok d', v') from h] at hrest
        have hext₂ : v₁.Extends v'' := by
          generalize fs.walk (v₁.entry v₁.root).inode q parts = x at hrest
          cases hrest with
          | ok _ hext' _ => exact hext'.trans hext
        have hext₃ := hext₁.trans hext₂
        rw [← hext₃.root_inode hwf] at hx
        rw [lookupPart_of_at hwf'' (hext₃.at hwf hat) (hext₂.at hwf₁ hat₁) hx]
        exact ih hwf₁ hat₁ h

end Vfs

/-! ### Every lookup -/

namespace Session

variable {I : Type} {fs : FileSystem I} {root : I} {s t : Session I}
variable {pwd : Option (Nat × Place I)}

/-- The tree is as it should be and the entries found are at their places. -/
structure Inv (fs : FileSystem I) (root : I) (s : Session I) : Prop where
  wf : s.vfs.Wf fs
  root_inode : (s.vfs.entry s.vfs.root).inode = root
  found : ∀ x ∈ s.found, s.vfs.At x.1 x.2

lemma inv_new (name : String) (root : I) : Inv fs root (new name root) :=
  ⟨Vfs.wf_new name root, rfl, by simp [new]⟩

lemma Inv.start (h : Inv fs root s) (path : String) (hpwd : ∀ x ∈ pwd, x ∈ s.found) :
    s.vfs.At (if startsWithSlash path then s.vfs.root else (pwd.map Prod.fst).getD s.vfs.root)
      (if startsWithSlash path then [] else (pwd.map Prod.snd).getD []) := by
  by_cases hslash : startsWithSlash path = true
  · rw [if_pos hslash, if_pos hslash]
    exact .root
  · rw [if_neg hslash, if_neg hslash]
    cases pwd with
    | none => exact .root
    | some x => exact h.found x (hpwd x rfl)

lemma Inv.follows (h : Inv fs root s) (path : String) (hpwd : ∀ x ∈ pwd, x ∈ s.found) :
    Vfs.Follows fs s.vfs (s.vfs.lookup fs path (pwd.map Prod.fst))
      (fs.resolve root path (pwd.map Prod.snd)) := by
  have hparts := Vfs.lookupParts_follows h.wf (h.start path hpwd) (parts path)
  rwa [h.root_inode] at hparts

lemma Inv.lookup (h : Inv fs root s) (path : String) (hpwd : ∀ x ∈ pwd, x ∈ s.found) :
    Inv fs root (s.lookup fs root path pwd) ∧ s.vfs.Extends (s.lookup fs root path pwd).vfs ∧
      (s.lookup fs root path pwd).vfs = (s.vfs.lookup fs path (pwd.map Prod.fst)).2 := by
  have hfollows := h.follows path hpwd
  rw [Session.lookup]
  generalize s.vfs.lookup fs path (pwd.map Prod.fst) = r at hfollows
  generalize fs.resolve root path (pwd.map Prod.snd) = x at hfollows
  cases hfollows with
  | ok hwf hext hat =>
    refine ⟨⟨hwf, (hext.root_inode h.wf).trans h.root_inode, ?_⟩, hext, rfl⟩
    intro y hy
    rcases List.mem_cons.mp hy with rfl | hy
    · exact hat
    · exact hext.at h.wf (h.found y hy)
  | error hwf hext =>
    refine ⟨⟨hwf, (hext.root_inode h.wf).trans h.root_inode, ?_⟩, hext, rfl⟩
    exact fun y hy => hext.at h.wf (h.found y hy)

lemma Inv.steps (h : Inv fs root s) (hs : Steps fs root s t) :
    Inv fs root t ∧ s.vfs.Extends t.vfs := by
  induction hs with
  | refl => exact ⟨h, .refl _⟩
  | tail _ hstep ih =>
    obtain ⟨hinv, hext⟩ := ih
    cases hstep with
    | lookup path pwd hpwd =>
      obtain ⟨hinv', hext', -⟩ := hinv.lookup path hpwd
      exact ⟨hinv', hext.trans hext'⟩

/-- The answer of a lookup is the one of the resolution: the same error, or an entry with the same
inode at the same place of the tree. -/
inductive Agrees (root : I) : Except VfsError Nat × Vfs I → Except VfsError (Place I) → Prop
  | ok {d : Nat} {v : Vfs I} {p : Place I} (hinode : (v.entry d).inode = FileSystem.inodeAt root p)
      (hat : v.At d p) : Agrees root (.ok d, v) (.ok p)
  | error {e : VfsError} {v : Vfs I} : Agrees root (.error e, v) (.error e)

end Session

/-- Every entry has its place, and its name and its parent are the ones of this place. -/
structure Vfs.Linked {I : Type} (v : Vfs I) : Prop where
  placed : ∀ d, d < v.count → ∃ p, v.At d p
  root : ∀ d, v.At d [] → d = v.root ∧ (v.entry d).parent = none
  child : ∀ d name i p, v.At d ((name, i) :: p) →
    (v.entry d).name = name ∧ ∃ d', (v.entry d).parent = some d' ∧ v.At d' p

namespace Session

variable {I : Type} {fs : FileSystem I} {root : I} {s t : Session I}

lemma Inv.linked (h : Inv fs root s) : s.vfs.Linked where
  placed := h.wf.placed
  root := by
    intro d hat
    cases hat
    exact ⟨rfl, h.wf.root_parent⟩
  child := by
    intro d name i p hat
    obtain ⟨d', hat', hchild⟩ := hat.exists_child
    have hlt := h.wf.at_lt hat'
    exact ⟨h.wf.child_name d' name d hlt hchild, d', h.wf.child_parent d' name d hlt hchild, hat'⟩

/-- The cache is transparent. After any lookups its entries are at their places, the next lookup
answers as the resolution without a cache does, and the same lookup later returns the same entry. -/
theorem lookup_transparent {name : String} (h : Steps fs root (new name root) s) (path : String)
    (pwd : Option (Nat × Place I)) (hpwd : ∀ x ∈ pwd, x ∈ s.found) :
    s.vfs.Linked ∧
      Agrees root (s.vfs.lookup fs path (pwd.map Prod.fst))
        (fs.resolve root path (pwd.map Prod.snd)) ∧
      ∀ d, (s.vfs.lookup fs path (pwd.map Prod.fst)).1 = .ok d →
        ∀ t, Steps fs root (s.lookup fs root path pwd) t →
          t.vfs.lookup fs path (pwd.map Prod.fst) = (.ok d, t.vfs) := by
  obtain ⟨hinv, -⟩ := (inv_new name root).steps h
  refine ⟨hinv.linked, ?_, ?_⟩
  · have hfollows := hinv.follows path hpwd
    generalize s.vfs.lookup fs path (pwd.map Prod.fst) = r at hfollows
    generalize fs.resolve root path (pwd.map Prod.snd) = x at hfollows
    cases hfollows with
    | ok hwf hext hat =>
      refine .ok ?_ hat
      rw [hat.inode, hext.root_inode hinv.wf, hinv.root_inode]
    | error _ _ => exact .error
  · intro d hd t ht
    obtain ⟨hinv₁, hext₁, hvfs⟩ := hinv.lookup path hpwd
    obtain ⟨hinv₂, hext₂⟩ := hinv₁.steps ht
    rw [hvfs] at hext₂
    have hfirst : s.vfs.lookup fs path (pwd.map Prod.fst) =
        (.ok d, (s.vfs.lookup fs path (pwd.map Prod.fst)).2) := Prod.ext hd rfl
    have hroot : t.vfs.root = s.vfs.root := by
      rw [hvfs] at hext₁
      exact (hext₁.trans hext₂).root
    rw [Vfs.lookup, hroot]
    exact Vfs.lookupParts_again hinv.wf (hinv.start path hpwd) hfirst hext₂ hinv₂.wf

theorem lookup_transparent_from_child : ∃ (fs : FileSystem Nat) (s : Session Nat),
    Steps fs 0 (new "" 0) s ∧ s.found = [(1, [("a", 1)])] ∧
      Agrees 0 (s.vfs.lookup fs ".././a" (some 1)) (.ok [("a", 1)]) := by
  let fs : FileSystem Nat :=
    ⟨fun i => if i = 0 then .directory else .normal,
      fun i name => if i = 0 ∧ name = "a" then .ok 1 else .error .notFound⟩
  have hstep : Steps fs 0 (new "" 0) ((new "" 0).lookup fs 0 "/a" none) :=
    .single (.lookup "/a" none (by simp))
  have hpwd : ∀ x ∈ some (1, [("a", 1)]), x ∈ ((new "" 0).lookup fs 0 "/a" none).found := by
    rintro _ ⟨⟩
    exact List.mem_singleton_self _
  exact ⟨fs, _, hstep, rfl, (lookup_transparent hstep ".././a" _ hpwd).2.1⟩

end Session

end Mars.Files
