import Mars.Files.Lookup
import Mathlib.Data.List.Infix

/-!
# Opening files

Embedding of `Vfs::open` and `create_file` of `klib/src/vfs/mod.rs`. A path that is not found can
be created. `lookup` splits a path at each `/` and `create_file` only at the last one, so that the
two have to agree on what is the last component.
-/

namespace Mars.Files

open FileSystem

/-- The operations of a file system with the states `σ`. The answers depend on nothing else, and a
new name changes no other. -/
structure Operations (σ I : Type) where
  fileType : I → FileType
  lookupChild : σ → I → String → Except VfsError I
  create : σ → I → String → FileType → Except VfsError I × σ
  /-- A created name is found. -/
  created : ∀ s parent name type i, (create s parent name type).1 = .ok i →
    lookupChild (create s parent name type).2 parent name = .ok i
  /-- The names that exist stay. -/
  kept : ∀ s parent name type e, lookupChild s parent name = .error e →
    ∀ j n k, lookupChild s j n = .ok k → lookupChild (create s parent name type).2 j n = .ok k

/-- The answers in a state. -/
def Operations.at {σ I : Type} (ops : Operations σ I) (s : σ) : FileSystem I :=
  ⟨ops.fileType, ops.lookupChild s⟩

/-- The cache, the state of the file system and the calls of `create` so far. -/
structure Volume (σ I : Type) where
  vfs : Vfs I
  disk : σ
  creates : List (I × String × FileType)

structure OpenFile where
  dirEntry : Nat
  readable : Bool
  writable : Bool
deriving DecidableEq, Repr

/-- `rfind("/")`. -/
def rfind : List Char → Option Nat
  | []      => none
  | c :: cs =>
    match rfind cs with
    | some i => some (i + 1)
    | none   => if c = '/' then some 0 else none

/-- The path of the directory and the name in it. -/
def splitPath (path : String) : String × String :=
  match rfind path.toList with
  | some i => (.ofList (path.toList.take i), .ofList (path.toList.drop (i + 1)))
  | none   => ("/", path)

namespace Volume

variable {σ I : Type}

def lookup (w : Volume σ I) (ops : Operations σ I) (path : String) (pwd : Option Nat) :
    Except VfsError Nat × Volume σ I :=
  let (r, vfs) := w.vfs.lookup (ops.at w.disk) path pwd
  (r, { w with vfs })

/-- The second half of `create_file`, with the entry of the directory. -/
def createChild (w : Volume σ I) (ops : Operations σ I) (parent : Nat) (name : String) :
    Except VfsError Nat × Volume σ I :=
  let inode := (w.vfs.entry parent).inode
  let creates := w.creates ++ [(inode, name, .normal)]
  match ops.create w.disk inode name .normal with
  | (.error e, disk) => (.error e, { w with disk, creates })
  | (.ok i, disk)    =>
    (.ok w.vfs.count, { vfs := w.vfs.insertChild parent name i, disk, creates })

def createFile (w : Volume σ I) (ops : Operations σ I) (path : String) :
    Except VfsError Nat × Volume σ I :=
  match w.lookup ops (splitPath path).1 none with
  | (.error e, w)   => (.error e, w)
  | (.ok parent, w) => w.createChild ops parent (splitPath path).2

/-- The entry that `open` uses. -/
def lookupOrCreate (w : Volume σ I) (ops : Operations σ I) (path : String) (create : Bool) :
    Except VfsError Nat × Volume σ I :=
  match w.lookup ops path none with
  | (.ok d, w)            => (.ok d, w)
  | (.error .notFound, w) => if create then w.createFile ops path else (.error .notFound, w)
  | (.error e, w)         => (.error e, w)

def openFile (w : Volume σ I) (ops : Operations σ I) (path : String)
    (create readable writable : Bool) : Except VfsError OpenFile × Volume σ I :=
  match w.lookupOrCreate ops path create with
  | (.error e, w) => (.error e, w)
  | (.ok d, w)    =>
    if ops.fileType (w.vfs.entry d).inode = .directory ∧ writable then (.error .isADirectory, w)
    else (.ok ⟨d, readable, writable⟩, w)

/-- The volumes of runs of lookups and opens. A lookup starts from the root or from any entry. -/
inductive Reach (ops : Operations σ I) (root : I) : Volume σ I → Prop
  | new (name : String) (disk : σ) : Reach ops root ⟨.new name root, disk, []⟩
  | lookup {w : Volume σ I} (h : Reach ops root w) (path : String) (pwd : Option Nat)
      (hpwd : ∀ d ∈ pwd, d < w.vfs.count) : Reach ops root (w.lookup ops path pwd).2
  | openFile {w : Volume σ I} (h : Reach ops root w) (path : String)
      (create readable writable : Bool) :
      Reach ops root (w.openFile ops path create readable writable).2

end Volume

/-! ### What may be created -/

def components (path : String) : List String := (parts path).filter (· ≠ "")

/-- The name of a file in a directory. -/
structure ProperName (name : String) : Prop where
  ne_empty : name ≠ ""
  ne_dot : name ≠ "."
  ne_dotdot : name ≠ ".."
  slash : '/' ∉ name.toList

namespace FileSystem

variable {I : Type}

/-- `name` is the last component of the path, it is missing in the directory with the inode
`parent`, and this is where the other components lead. -/
structure MayCreate (fs : FileSystem I) (root : I) (path : String) (parent : I) (name : String) :
    Prop where
  last : ∃ dirs place, components path = dirs ++ [name] ∧ fs.walk root [] dirs = .ok place ∧
    inodeAt root place = parent
  directory : fs.fileType parent = .directory
  missing : fs.lookupChild parent name = .error .notFound
  name : ProperName name

/-- A component other than the last is missing or not a directory. -/
def Blocked (fs : FileSystem I) (root : I) (path : String) : Prop :=
  ∃ dirs, dirs ≠ [] ∧ dirs <+: components path ∧ dirs ≠ components path ∧
    ∀ place, fs.walk root [] dirs = .ok place → fs.fileType (inodeAt root place) ≠ .directory

/-- A component other than the last is there and not a directory. -/
def PassesFile (fs : FileSystem I) (root : I) (path : String) : Prop :=
  ∃ dirs, dirs ≠ [] ∧ dirs <+: components path ∧ dirs ≠ components path ∧
    ∃ place, fs.walk root [] dirs = .ok place ∧ fs.fileType (inodeAt root place) ≠ .directory

/-- The path leads to something that can be opened, or only its last part is not found. -/
def Opens (fs : FileSystem I) (root : I) (path : String) (writable : Bool) : Prop :=
  (∃ place, fs.walk root [] (parts path) = .ok place ∧
    ¬ (fs.fileType (inodeAt root place) = .directory ∧ writable)) ∨
  (fs.walk root [] (parts path) = .error .notFound ∧
    ∃ place, fs.walk root [] (parts path).dropLast = .ok place)

end FileSystem

/-- What `open` with `create` may do. -/
structure Volume.OpensSafely {σ I : Type} (w : Volume σ I) (ops : Operations σ I) (root : I)
    (path : String) (x : Except VfsError OpenFile × Volume σ I) : Prop where
  creates : x.2.creates = w.creates ∨ ∃ parent name,
    x.2.creates = w.creates ++ [(parent, name, .normal)] ∧
      (ops.at w.disk).MayCreate root path parent name
  blocked : (ops.at w.disk).Blocked root path →
    (∃ e, x.1 = .error e) ∧ x.2.creates = w.creates
  again : ∀ f, x.1 = .ok f → (x.2.lookup ops path none).1 = .ok f.dirEntry

/-! ### The last component -/

lemma rfind_eq_none {l : List Char} (h : rfind l = none) : '/' ∉ l := by
  induction l with
  | nil => exact List.not_mem_nil
  | cons c cs ih =>
    rw [rfind] at h
    split at h
    · cases h
    · rename_i hcs
      split_ifs at h with hc
      exact List.not_mem_cons_of_ne_of_not_mem (Ne.symm hc) (ih hcs)

lemma rfind_eq_some {l : List Char} {i : Nat} (h : rfind l = some i) :
    l = l.take i ++ '/' :: l.drop (i + 1) ∧ '/' ∉ l.drop (i + 1) := by
  induction l generalizing i with
  | nil => cases h
  | cons c cs ih =>
    rw [rfind] at h
    split at h
    · rename_i k hk
      cases h
      obtain ⟨hl, hslash⟩ := ih hk
      exact ⟨congrArg (c :: ·) hl, hslash⟩
    · rename_i hcs
      split_ifs at h with hc
      cases h
      subst hc
      exact ⟨rfl, rfind_eq_none hcs⟩

/-- The part behind the last `/` is the last part of the path. -/
lemma parts_splitPath (path : String) :
    '/' ∉ (splitPath path).2.toList ∧
      (parts path = parts (splitPath path).1 ++ [(splitPath path).2] ∨
        (parts (splitPath path).1 = ["", ""] ∧ parts path = [(splitPath path).2])) := by
  rw [splitPath]
  cases h : rfind path.toList with
  | none =>
    have hslash := rfind_eq_none h
    have hroot : parts "/" = ["", ""] := by decide +kernel
    refine ⟨hslash, .inr ⟨hroot, ?_⟩⟩
    simp [parts, List.splitOn_eq_singleton hslash]
  | some i =>
    obtain ⟨hpath, hslash⟩ := rfind_eq_some h
    refine ⟨by simpa using hslash, .inl ?_⟩
    have hsplit : path.toList.splitOn '/' =
        (path.toList.take i).splitOn '/' ++ [path.toList.drop (i + 1)] := by
      conv_lhs => rw [hpath]
      rw [← List.splitOn_eq_singleton hslash]
      exact List.splitOnP_append_cons _ _ (beq_self_eq_true '/')
    simp [parts, hsplit]

namespace FileSystem

variable {I : Type} {fs : FileSystem I} {root : I} {p q : Place I} {path : String}

lemma walk_append (xs ys : List String) : fs.walk root p (xs ++ ys) =
    match fs.walk root p xs with
    | .error e => .error e
    | .ok q    => fs.walk root q ys := by
  induction xs generalizing p with
  | nil => rfl
  | cons x xs ih =>
    simp only [List.cons_append, walk]
    cases fs.walkPart root p x with
    | error e => rfl
    | ok q => exact ih

lemma walk_singleton (part : String) : fs.walk root p [part] = fs.walkPart root p part := by
  rw [walk]
  cases fs.walkPart root p part with
  | error e => rfl
  | ok q => rfl

@[simp] lemma walkPart_empty : fs.walkPart root p "" = .ok p := by
  simp [walkPart]

/-- Empty parts make no difference. -/
lemma walk_filter (xs : List String) : fs.walk root p (xs.filter (· ≠ "")) = fs.walk root p xs := by
  induction xs generalizing p with
  | nil => rfl
  | cons x xs ih =>
    by_cases hx : x = ""
    · subst hx
      simpa [walk] using ih
    · simp only [List.filter_cons, ne_eq, hx, not_false_eq_true, decide_true, if_true, walk]
      cases fs.walkPart root p x with
      | error e => rfl
      | ok q => exact ih

lemma walk_components (path : String) :
    fs.walk root p (components path) = fs.walk root p (parts path) :=
  walk_filter (parts path)

/-- The two ways to split the path lead to the same place. -/
lemma walk_splitPath (path : String) : fs.walk root p (parts path) =
    match fs.walk root p (parts (splitPath path).1) with
    | .error e => .error e
    | .ok q    => fs.walkPart root q (splitPath path).2 := by
  rcases (parts_splitPath path).2 with h | ⟨hdir, h⟩
  · rw [h, walk_append]
    cases fs.walk root p (parts (splitPath path).1) with
    | error e => rfl
    | ok q => exact walk_singleton _
  · rw [hdir, h, walk_singleton]
    simp [walk]

lemma walk_dropLast_parts (path : String) :
    fs.walk root p (parts path).dropLast = fs.walk root p (parts (splitPath path).1) := by
  rcases (parts_splitPath path).2 with h | ⟨hdir, h⟩
  · rw [h, List.dropLast_concat]
  · rw [hdir, h]
    simp [walk]

lemma components_splitPath (h : (splitPath path).2 ≠ "") :
    components path = components (splitPath path).1 ++ [(splitPath path).2] := by
  rcases (parts_splitPath path).2 with hparts | ⟨hdir, hparts⟩
  · simp [components, hparts, List.filter_append, h]
  · simp [components, hparts, hdir, h]

lemma prefix_components {dirs : List String} (h : dirs <+: components path)
    (hne : dirs ≠ components path) : dirs <+: components (splitPath path).1 := by
  by_cases hname : (splitPath path).2 = ""
  · -- after a `/` at the end there is no component
    rcases (parts_splitPath path).2 with hparts | ⟨hdir, hparts⟩
    · simpa [components, hparts, hname] using h
    · simpa [components, hparts, hdir, hname] using h
  · rw [components_splitPath hname] at h hne
    exact (List.prefix_concat_iff.mp h).resolve_left hne

lemma walk_of_prefix {xs ys : List String} (h : xs <+: ys) (hq : fs.walk root p ys = .ok q) :
    ∃ q', fs.walk root p xs = .ok q' := by
  obtain ⟨zs, rfl⟩ := h
  rw [walk_append] at hq
  cases hx : fs.walk root p xs with
  | error e =>
    rw [hx] at hq
    cases hq
  | ok q' => exact ⟨q', rfl⟩

/-- If the path can be opened, only a file among its components can be in the way. -/
lemma Opens.passesFile {writable : Bool} (h : fs.Opens root path writable)
    (hblocked : fs.Blocked root path) : fs.PassesFile root path := by
  obtain ⟨dirs, hnil, hprefix, hne, hfile⟩ := hblocked
  obtain ⟨place, hplace⟩ : ∃ place, fs.walk root [] dirs = .ok place := by
    rcases h with ⟨q, hq, -⟩ | ⟨-, q, hq⟩
    · exact walk_of_prefix hprefix ((walk_components path).trans hq)
    · rw [walk_dropLast_parts, ← walk_components] at hq
      exact walk_of_prefix (prefix_components hprefix hne) hq
  exact ⟨dirs, hnil, hprefix, hne, place, hplace, hfile place hplace⟩

lemma PassesFile.blocked (h : fs.PassesFile root path) : fs.Blocked root path := by
  obtain ⟨dirs, hnil, hprefix, hne, place, hplace, hfile⟩ := h
  refine ⟨dirs, hnil, hprefix, hne, fun place' hplace' => ?_⟩
  cases hplace.symm.trans hplace'
  exact hfile

/-- If the directory of the path is there and the path is not found, the name is missing in the
directory. -/
lemma mayCreate_of_walk (hdir : fs.walk root [] (parts (splitPath path).1) = .ok p)
    (h : fs.walk root [] (parts path) = .error .notFound) :
    fs.MayCreate root path (inodeAt root p) (splitPath path).2 := by
  rw [walk_splitPath, hdir] at h
  change fs.walkPart root p (splitPath path).2 = .error .notFound at h
  rw [walkPart] at h
  split_ifs at h with hdot hdotdot hfile
  · cases h
  obtain ⟨hempty, hdot⟩ := not_or.mp hdot
  refine ⟨?_, ?_, ?_, ⟨hempty, hdot, hdotdot, (parts_splitPath path).1⟩⟩
  · exact ⟨_, p, components_splitPath hempty, (walk_components _).trans hdir, rfl⟩
  · simpa using hfile
  · cases hlookup : fs.lookupChild (inodeAt root p) (splitPath path).2 with
    | error e =>
      rw [hlookup] at h
      cases h
      rfl
    | ok i =>
      rw [hlookup] at h
      cases h

/-- What is there stays there. -/
structure Grows (fs fs' : FileSystem I) : Prop where
  fileType : fs'.fileType = fs.fileType
  lookupChild : ∀ i name j, fs.lookupChild i name = .ok j → fs'.lookupChild i name = .ok j

lemma Grows.walkPart {fs' : FileSystem I} (h : fs.Grows fs') {part : String}
    (hq : fs.walkPart root p part = .ok q) : fs'.walkPart root p part = .ok q := by
  rw [FileSystem.walkPart, h.fileType]
  rw [FileSystem.walkPart] at hq
  split_ifs at hq ⊢
  · exact hq
  · exact hq
  · cases hlookup : fs.lookupChild (inodeAt root p) part with
    | error e =>
      rw [hlookup] at hq
      cases hq
    | ok i =>
      rw [hlookup] at hq
      rw [h.lookupChild _ _ _ hlookup]
      exact hq

lemma Grows.walk {fs' : FileSystem I} (h : fs.Grows fs') {xs : List String}
    (hq : fs.walk root p xs = .ok q) : fs'.walk root p xs = .ok q := by
  induction xs generalizing p with
  | nil => exact hq
  | cons x xs ih =>
    rw [walk] at hq ⊢
    cases hx : fs.walkPart root p x with
    | error e =>
      rw [hx] at hq
      cases hq
    | ok p' =>
      rw [hx] at hq
      rw [h.walkPart hx]
      exact ih hq

/-- The path is found if its name is in the directory. -/
lemma walk_of_lookupChild (hdir : fs.walk root [] (parts (splitPath path).1) = .ok p)
    (hfile : fs.fileType (inodeAt root p) = .directory) (hname : ProperName (splitPath path).2)
    {i : I} (hi : fs.lookupChild (inodeAt root p) (splitPath path).2 = .ok i) :
    fs.walk root [] (parts path) = .ok (((splitPath path).2, i) :: p) := by
  rw [walk_splitPath, hdir]
  simp [walkPart, hname.ne_empty, hname.ne_dot, hname.ne_dotdot, hfile, hi]

end FileSystem

/-! ### Lookups -/

lemma Vfs.Wf.mono {I : Type} {fs fs' : FileSystem I} {v : Vfs I} (hwf : v.Wf fs)
    (h : fs.Grows fs') : v.Wf fs' :=
  { hwf with
    child_inode := fun d name j hd hj => h.lookupChild _ _ _ (hwf.child_inode d name j hd hj) }

lemma Vfs.lookup_none {I : Type} (v : Vfs I) (fs : FileSystem I) (path : String) :
    v.lookup fs path none = v.lookupParts fs v.root (parts path) := by
  simp [Vfs.lookup]

namespace Volume

variable {σ I : Type} {ops : Operations σ I} {root : I} {w w' : Volume σ I} {path : String}

structure Inv (ops : Operations σ I) (root : I) (w : Volume σ I) : Prop where
  wf : w.vfs.Wf (ops.at w.disk)
  root_inode : (w.vfs.entry w.vfs.root).inode = root

lemma Inv.extends (h : Inv ops root w) {vfs : Vfs I} (hext : w.vfs.Extends vfs)
    (hwf : vfs.Wf (ops.at w.disk)) : Inv ops root { w with vfs } :=
  ⟨hwf, (hext.root_inode h.wf).trans h.root_inode⟩

inductive Lookup (ops : Operations σ I) (root : I) (w : Volume σ I) (path : String) :
    Except VfsError Nat × Volume σ I → Prop
  | ok {d : Nat} {vfs : Vfs I} {place : Place I}
      (hwalk : (ops.at w.disk).walk root [] (parts path) = .ok place)
      (hinv : Inv ops root { w with vfs }) (hext : w.vfs.Extends vfs) (hat : vfs.At d place) :
      Lookup ops root w path (.ok d, { w with vfs })
  | error {e : VfsError} {vfs : Vfs I}
      (hwalk : (ops.at w.disk).walk root [] (parts path) = .error e)
      (hinv : Inv ops root { w with vfs }) (hext : w.vfs.Extends vfs) :
      Lookup ops root w path (.error e, { w with vfs })

lemma Inv.lookup_root (h : Inv ops root w) (path : String) :
    Lookup ops root w path (w.lookup ops path none) := by
  have hfollows := Vfs.lookupParts_follows h.wf .root (parts path)
  rw [h.root_inode] at hfollows
  rw [Volume.lookup, Vfs.lookup_none]
  generalize hx : (ops.at w.disk).walk root [] (parts path) = x at hfollows
  generalize w.vfs.lookupParts (ops.at w.disk) w.vfs.root (parts path) = r at hfollows
  cases hfollows with
  | ok hwf hext hat => exact .ok hx (h.extends hext hwf) hext hat
  | error hwf hext => exact .error hx (h.extends hext hwf) hext

lemma Inv.lookup_of_at (h : Inv ops root w) {d : Nat} {place : Place I}
    (hwalk : (ops.at w.disk).walk root [] (parts path) = .ok place) (hat : w.vfs.At d place) :
    (w.lookup ops path none).1 = .ok d := by
  have hlookup := h.lookup_root path
  generalize w.lookup ops path none = r at hlookup
  cases hlookup with
  | ok hwalk' hinv hext hat' =>
    cases hwalk.symm.trans hwalk'
    rw [hat'.entry_unique (hext.at h.wf hat)]
  | error hwalk' => cases hwalk.symm.trans hwalk'

lemma Inv.inode_of_at (h : Inv ops root w) {d : Nat} {place : Place I} (hat : w.vfs.At d place) :
    (w.vfs.entry d).inode = inodeAt root place := by
  rw [hat.inode, h.root_inode]

lemma Inv.lookup (h : Inv ops root w) (path : String) {pwd : Option Nat}
    (hpwd : ∀ d ∈ pwd, d < w.vfs.count) : Inv ops root (w.lookup ops path pwd).2 := by
  obtain ⟨d, place, hat, hstart⟩ : ∃ d place, w.vfs.At d place ∧
      w.vfs.lookup (ops.at w.disk) path pwd =
        w.vfs.lookupParts (ops.at w.disk) d (parts path) := by
    rw [Vfs.lookup]
    split_ifs
    · exact ⟨_, [], .root, rfl⟩
    · cases pwd with
      | none => exact ⟨_, [], .root, rfl⟩
      | some d =>
        obtain ⟨place, hat⟩ := h.wf.placed d (hpwd d rfl)
        exact ⟨d, place, hat, rfl⟩
  have hfollows := Vfs.lookupParts_follows h.wf hat (parts path)
  rw [Volume.lookup, hstart]
  generalize w.vfs.lookupParts (ops.at w.disk) d (parts path) = r at hfollows
  generalize (ops.at w.disk).walk _ place (parts path) = x at hfollows
  cases hfollows with
  | ok hwf hext hat => exact h.extends hext hwf
  | error hwf hext => exact h.extends hext hwf

/-! ### The entry of a path -/

/-- What becomes of a path that is to be opened. -/
inductive Attempt (ops : Operations σ I) (root : I) (w : Volume σ I) (path : String) :
    Except VfsError Nat × Volume σ I → Prop
  | found {d : Nat} {w' : Volume σ I} {place : Place I} (hinv : Inv ops root w')
      (hcreates : w'.creates = w.creates)
      (hwalk : (ops.at w.disk).walk root [] (parts path) = .ok place)
      (hinode : (w'.vfs.entry d).inode = inodeAt root place)
      (hagain : (w'.lookup ops path none).1 = .ok d) : Attempt ops root w path (.ok d, w')
  | failed {e e' : VfsError} {w' : Volume σ I} (hinv : Inv ops root w')
      (hcreates : w'.creates = w.creates)
      (hwalk : (ops.at w.disk).walk root [] (parts path) = .error e')
      (hdir : e' = .notFound →
        ∀ place, (ops.at w.disk).walk root [] (parts path).dropLast ≠ .ok place) :
      Attempt ops root w path (.error e, w')
  /-- Something has been created, or the file system has refused to. -/
  | asked {r : Except VfsError Nat} {w' : Volume σ I} {parent : I} {name : String}
      {place : Place I} (hinv : Inv ops root w')
      (hcreates : w'.creates = w.creates ++ [(parent, name, .normal)])
      (hwalk : (ops.at w.disk).walk root [] (parts path) = .error .notFound)
      (hdir : (ops.at w.disk).walk root [] (parts path).dropLast = .ok place)
      (hmay : (ops.at w.disk).MayCreate root path parent name)
      (hagain : ∀ d, r = .ok d → (w'.lookup ops path none).1 = .ok d) :
      Attempt ops root w path (r, w')

lemma Inv.createChild (h : Inv ops root w) {parent : Nat} {place : Place I} {name : String}
    (hat : w.vfs.At parent place)
    (hmissing : ops.lookupChild w.disk (inodeAt root place) name = .error .notFound) :
    let x := w.createChild ops parent name
    Inv ops root x.2 ∧ (ops.at w.disk).Grows (ops.at x.2.disk) ∧
      x.2.creates = w.creates ++ [(inodeAt root place, name, .normal)] ∧
      ∀ d, x.1 = .ok d → ∃ i, x.2.vfs.At d ((name, i) :: place) ∧
        ops.lookupChild x.2.disk (inodeAt root place) name = .ok i := by
  have hcreated := ops.created w.disk (inodeAt root place) name .normal
  have hkept := ops.kept w.disk (inodeAt root place) name .normal .notFound hmissing
  rw [Volume.createChild, h.inode_of_at hat]
  generalize ops.create w.disk (inodeAt root place) name .normal = c at hcreated hkept
  obtain ⟨r, disk⟩ := c
  have hgrows : (ops.at w.disk).Grows (ops.at disk) := ⟨rfl, hkept⟩
  have hwf := h.wf.mono hgrows
  cases r with
  | error e => exact ⟨⟨hwf, h.root_inode⟩, hgrows, rfl, by rintro d ⟨⟩⟩
  | ok i =>
    -- the cache cannot have the name, since the file system does not
    have hnone : (w.vfs.entry parent).children name = none := by
      cases hchild : (w.vfs.entry parent).children name with
      | none => rfl
      | some j =>
        have hj := h.wf.child_inode parent name j (h.wf.at_lt hat) hchild
        rw [h.inode_of_at hat] at hj
        cases hmissing.symm.trans hj
    have hi := hcreated i rfl
    have hi' : (ops.at disk).lookupChild (w.vfs.entry parent).inode name = .ok i := by
      rw [h.inode_of_at hat]
      exact hi
    obtain ⟨hwf', hnew⟩ := hwf.insertChild hat hnone hi'
    have hext : w.vfs.Extends (w.vfs.insertChild parent name i) :=
      Vfs.extends_insertChild (h.wf.at_lt hat) hnone
    refine ⟨⟨hwf', (hext.root_inode h.wf).trans h.root_inode⟩, hgrows, rfl, ?_⟩
    rintro d ⟨⟩
    exact ⟨i, hnew, hi⟩

lemma Inv.createFile (h : Inv ops root w)
    (hwalk : (ops.at w.disk).walk root [] (parts path) = .error .notFound) :
    Attempt ops root w path (w.createFile ops path) := by
  have hlookup := h.lookup_root (splitPath path).1
  rw [Volume.createFile]
  generalize w.lookup ops (splitPath path).1 none = r at hlookup
  cases hlookup with
  | error hdir hinv hext =>
    refine .failed hinv rfl hwalk fun _ place => ?_
    rw [walk_dropLast_parts, hdir]
    rintro ⟨⟩
  | ok hdir hinv hext hat =>
    have hmay := mayCreate_of_walk hdir hwalk
    have hdrop := (walk_dropLast_parts path).trans hdir
    obtain ⟨hinv', hgrows, hcreates, hnew⟩ := hinv.createChild hat hmay.missing
    refine .asked hinv' hcreates hwalk hdrop hmay ?_
    intro d hd
    obtain ⟨i, hat', hi⟩ := hnew d hd
    have hpath := walk_of_lookupChild (hgrows.walk hdir) hmay.directory hmay.name hi
    exact hinv'.lookup_of_at hpath hat'

/-- The file system and the calls so far are what counts, not the cache. -/
lemma Attempt.of_vfs {vfs : Vfs I} {x : Except VfsError Nat × Volume σ I}
    (h : Attempt ops root { w with vfs } path x) : Attempt ops root w path x := by
  cases h with
  | found hinv hcreates hwalk hinode hagain => exact .found hinv hcreates hwalk hinode hagain
  | failed hinv hcreates hwalk hdir => exact .failed hinv hcreates hwalk hdir
  | asked hinv hcreates hwalk hdir hmay hagain =>
    exact .asked hinv hcreates hwalk hdir hmay hagain

lemma Inv.lookupOrCreate (h : Inv ops root w) (path : String) :
    Attempt ops root w path (w.lookupOrCreate ops path true) := by
  have hlookup := h.lookup_root path
  rw [Volume.lookupOrCreate]
  generalize w.lookup ops path none = r at hlookup
  cases hlookup with
  | ok hwalk hinv hext hat =>
    exact .found hinv rfl hwalk (hinv.inode_of_at hat) (hinv.lookup_of_at hwalk hat)
  | @error e vfs hwalk hinv hext =>
    have hfailed (he : e ≠ .notFound) : Attempt ops root w path (.error e, { w with vfs }) :=
      .failed hinv rfl hwalk fun hnot => absurd hnot he
    cases e with
    | notFound =>
      exact (hinv.createFile hwalk).of_vfs
    | existsAlready | notADirectory | isADirectory | permissionDenied | io | outOfSpace =>
      exact hfailed (by decide)

/-! ### Opening -/

lemma Attempt.inv {x : Except VfsError Nat × Volume σ I} (h : Attempt ops root w path x) :
    Inv ops root x.2 := by
  cases h with
  | found hinv => exact hinv
  | failed hinv => exact hinv
  | asked hinv => exact hinv

lemma openFile_snd (create readable writable : Bool) :
    (w.openFile ops path create readable writable).2 = (w.lookupOrCreate ops path create).2 := by
  rw [openFile]
  rcases w.lookupOrCreate ops path create with ⟨r, w'⟩
  cases r with
  | error e => rfl
  | ok d =>
    dsimp only
    split_ifs <;> rfl

lemma Inv.openFile (h : Inv ops root w) (path : String) (create readable writable : Bool) :
    Inv ops root (w.openFile ops path create readable writable).2 := by
  rw [openFile_snd]
  cases create with
  | true => exact (h.lookupOrCreate path).inv
  | false =>
    have hinv : Inv ops root (w.lookup ops path none).2 := h.lookup path (by rintro d ⟨⟩)
    rw [Volume.lookupOrCreate]
    split <;> simp_all

lemma Reach.inv (h : Reach ops root w) : Inv ops root w := by
  induction h with
  | new name disk => exact ⟨Vfs.wf_new name root, rfl⟩
  | lookup _ path pwd hpwd ih => exact ih.lookup path hpwd
  | openFile _ path create readable writable ih => exact ih.openFile path create readable writable

/-- A call comes through exactly if the path can be opened. -/
lemma Inv.openFile_iff (h : Inv ops root w) (path : String) (readable writable : Bool) :
    ((∃ e, (w.openFile ops path true readable writable).1 = .error e) ∧
      (w.openFile ops path true readable writable).2.creates = w.creates) ↔
    ¬ (ops.at w.disk).Opens root path writable := by
  have hattempt := h.lookupOrCreate path
  rw [openFile_snd, Volume.openFile]
  generalize w.lookupOrCreate ops path true = x at hattempt
  cases hattempt with
  | @found d w' place hinv hcreates hwalk hinode hagain =>
    have hopens : (ops.at w.disk).Opens root path writable ↔
        ¬ (ops.fileType (w'.vfs.entry d).inode = .directory ∧ writable) := by
      simp only [FileSystem.Opens, hwalk]
      simp [hinode, Operations.at]
    rw [hopens, not_not]
    dsimp only
    split_ifs with hdir
    · exact ⟨fun _ => hdir, fun _ => ⟨⟨_, rfl⟩, hcreates⟩⟩
    · refine ⟨?_, fun hdir' => absurd hdir' hdir⟩
      rintro ⟨⟨e, ⟨⟩⟩, -⟩
  | failed hinv hcreates hwalk hdir =>
    refine ⟨fun _ => ?_, fun _ => ⟨⟨_, rfl⟩, hcreates⟩⟩
    rintro (⟨place, hplace, -⟩ | ⟨hnot, place, hplace⟩)
    · cases hwalk.symm.trans hplace
    · rw [hnot] at hwalk
      cases hwalk
      exact hdir rfl place hplace
  | asked hinv hcreates hwalk hdir hmay hagain =>
    refine ⟨?_, fun hnot => absurd (.inr ⟨hwalk, _, hdir⟩) hnot⟩
    rintro ⟨-, hsame⟩
    rw [hcreates] at hsame
    simp at hsame

lemma Inv.openFile_creates (h : Inv ops root w) (path : String) (readable writable : Bool) :
    let x := w.openFile ops path true readable writable
    x.2.creates = w.creates ∨ ∃ parent name,
      x.2.creates = w.creates ++ [(parent, name, .normal)] ∧
        (ops.at w.disk).MayCreate root path parent name := by
  have hattempt := h.lookupOrCreate path
  dsimp only
  rw [openFile_snd]
  generalize w.lookupOrCreate ops path true = x at hattempt
  cases hattempt with
  | found hinv hcreates => exact .inl hcreates
  | failed hinv hcreates => exact .inl hcreates
  | asked hinv hcreates hwalk hdir hmay => exact .inr ⟨_, _, hcreates, hmay⟩

lemma Inv.openFile_again (h : Inv ops root w) {path : String} {readable writable : Bool}
    {f : OpenFile} (hf : (w.openFile ops path true readable writable).1 = .ok f) :
    ((w.openFile ops path true readable writable).2.lookup ops path none).1 = .ok f.dirEntry := by
  have hattempt := h.lookupOrCreate path
  rw [openFile_snd]
  rw [Volume.openFile] at hf
  generalize w.lookupOrCreate ops path true = x at hattempt hf
  obtain ⟨r, w'⟩ := x
  cases r with
  | error e => cases hf
  | ok d =>
    have hd : f.dirEntry = d := by
      dsimp only at hf
      split_ifs at hf
      cases hf
      rfl
    rw [hd]
    cases hattempt with
    | found _ _ _ _ hagain => exact hagain
    | asked _ _ _ _ _ hagain => exact hagain d rfl

/-- `open` with `create` does what it may, unless the path goes through a file and can be opened
nevertheless. -/
theorem Reach.opensSafely_iff (h : Reach ops root w) (path : String) (readable writable : Bool) :
    w.OpensSafely ops root path (w.openFile ops path true readable writable) ↔
      ¬ ((ops.at w.disk).PassesFile root path ∧ (ops.at w.disk).Opens root path writable) := by
  have hiff := h.inv.openFile_iff path readable writable
  constructor
  · rintro ⟨-, hblocked, -⟩ ⟨hfile, hopens⟩
    exact hiff.mp (hblocked hfile.blocked) hopens
  · intro hnot
    refine ⟨h.inv.openFile_creates path readable writable, ?_, fun f => h.inv.openFile_again⟩
    intro hblocked
    apply hiff.mpr
    intro hopens
    exact hnot ⟨hopens.passesFile hblocked, hopens⟩

/-- A directory with the file `f`. One can create the file `x` in it. -/
def smallFs : Operations Bool Nat where
  fileType i := if i = 0 then .directory else .normal
  lookupChild s i name :=
    if i = 0 ∧ name = "f" then .ok 1
    else if s ∧ i = 0 ∧ name = "x" then .ok 2
    else .error .notFound
  create s i name _ := if i = 0 ∧ name = "x" then (.ok 2, true) else (.error .outOfSpace, s)
  created := by
    intro s i name type j h
    split_ifs at h with hx
    cases h
    simp [hx]
  kept := by
    intro s i name type e he j n k hk
    grind

theorem opensSafely_new : ∃ w : Volume Bool Nat, Reach smallFs 0 w ∧
    (w.openFile smallFs "/x" true true true).2.creates = [(0, "x", .normal)] ∧
    w.OpensSafely smallFs 0 "/x" (w.openFile smallFs "/x" true true true) := by
  refine ⟨_, .new "" false, by decide +kernel, ?_⟩
  apply ((Reach.new "" false).opensSafely_iff "/x" true true).mpr
  rintro ⟨⟨dirs, hnil, hprefix, hne, -⟩, -⟩
  have hx : components "/x" = [] ++ ["x"] := by decide +kernel
  rw [hx] at hprefix hne
  rcases List.prefix_concat_iff.mp hprefix with h | h
  · exact hne h
  · exact hnil (List.prefix_nil.mp h)

/-- The component `f` is not a directory, and `x` is created nevertheless. -/
theorem not_opensSafely_through_file : ∃ w : Volume Bool Nat, Reach smallFs 0 w ∧
    (w.openFile smallFs "f/../x" true true true).2.creates = [(0, "x", .normal)] ∧
    ¬ w.OpensSafely smallFs 0 "f/../x" (w.openFile smallFs "f/../x" true true true) := by
  have hcreates : ((⟨.new "" 0, false, []⟩ : Volume Bool Nat).openFile smallFs "f/../x" true true
      true).2.creates = [(0, "x", .normal)] := by decide +kernel
  refine ⟨_, .new "" false, hcreates, ?_⟩
  rintro ⟨-, hblocked, -⟩
  have hx : components "f/../x" = ["f", "..", "x"] := by decide +kernel
  have hsame := (hblocked ⟨["f"], by simp, by simp [hx], by simp [hx], ?_⟩).2
  · rw [hcreates] at hsame
    cases hsame
  · rintro place ⟨⟩
    decide

end Volume

end Mars.Files
