import Mars.Aml.Namespace
import Mars.Aml.Total

/-!
# The parents of devices

`process_terms` gives a device the parent of the scope it stands in: the device around it, or the
one that an enclosing `Scope` names. In the namespace the parent depends on the absolute path only.
The two agree exactly if the innermost enclosing `Device`, or `Scope` with the text of a device, is
the namespace parent.
-/

namespace Mars.Aml

open Function Mars.Hardware TreeBuilder

/-! ### The devices of a list of terms -/

/-- A `Scope` or a `Device` with its absolute path and its text; `before` devices have been declared
when its body starts. -/
structure Frame where
  path : List NameSeg
  text : String
  before : Nat

/-- A device, and what is around it, the innermost first. -/
structure Decl where
  path : List NameSeg
  text : String
  frames : List Frame

def scopePath : List Frame → List NameSeg
  | []     => []
  | f :: _ => f.path

def scopeText : List Frame → String
  | []     => "\\"
  | f :: _ => f.text

/-- The object with this name inside the frames. -/
def innerFrame (frames : List Frame) (name : NamePath) (before : Nat) : Frame :=
  { path := name.resolve (scopePath frames)
    text := joinPath (scopeText frames) name.text
    before := before }

mutual
/-- The devices that a term declares, in the order of their `Device` terms; `n` devices have been
declared before. -/
def Term.decls (n : Nat) (frames : List Frame) : Term → List Decl
  | .scope _ name body  => termsDecls n (innerFrame frames name n :: frames) body
  | .device _ name body =>
    let f := innerFrame frames name (n + 1)
    { path := f.path, text := f.text, frames := frames } :: termsDecls (n + 1) (f :: frames) body
  | _                   => []

def termsDecls (n : Nat) (frames : List Frame) : List Term → List Decl
  | []      => []
  | t :: ts => t.decls n frames ++ termsDecls (n + (t.decls n frames).length) frames ts
end

/-! ### Parents -/

/-- A proper prefix. -/
def Above (p q : List NameSeg) : Prop := p <+: q ∧ p ≠ q

/-- `p` is above `q`, and no device above `q` is below `p`. -/
def Nearest (ds : List Decl) (q p : List NameSeg) : Prop :=
  Above p q ∧ ∀ e ∈ ds, Above e.path q → e.path.length ≤ p.length

/-- The parent in the namespace, among devices whose nodes start at `base`. -/
def NamespaceParent (base : Nat) (ds : List Decl) (d : Decl) : Option DeviceId → Prop
  | some id => ∃ j e, id.idx = base + j ∧ ds[j]? = some e ∧ Nearest ds d.path e.path
  | none    => ∀ e ∈ ds, ¬ Above e.path d.path

/-- A device declared before has the same text. A `Device` has its own. -/
def Frame.namesDevice (ds : List Decl) (f : Frame) : Bool :=
  ((ds.take f.before).map Decl.text).contains f.text

/-- The innermost frame that names a device is the namespace parent. -/
def Decl.Nested (ds : List Decl) (d : Decl) : Prop :=
  match d.frames.find? (Frame.namesDevice ds) with
  | some f => Nearest ds d.path f.path
  | none   => ∀ e ∈ ds, ¬ Above e.path d.path

/-! ### Parsing the bodies -/

/-- The parsed terms, of which some names may be missing. -/
inductive Thinned : List Term → List AmlTerm → Prop
  | nil : Thinned [] []
  | keep {ts : List Term} {as : List AmlTerm} (t : Term) (h : Thinned ts as) :
      Thinned (t :: ts) (t.parsed :: as)
  | drop {ts : List Term} {as : List AmlTerm} (name : NamePath) (value : DataObject)
      (h : Thinned ts as) : Thinned (.name name value :: ts) as

lemma thinned_map (ts : List Term) : Thinned ts (ts.map Term.parsed) := by
  induction ts with
  | nil => exact .nil
  | cons t ts ih => exact .keep t ih

/-- The parser takes the first of the encoded terms. -/
lemma parseNext_encodeTerms {t : Term} {ts : List Term} (ht : t.WellFormed) {p : AmlParser}
    (hp : p.cursor ≤ p.bytes.length) (h : p.rest = encodeTerms (t :: ts)) :
    ∃ q : AmlParser, parseNext.run p = (.ok (some t.parsed), q) ∧ q.cursor ≤ q.bytes.length ∧
      q.rest = encodeTerms ts ∧ q.rest.length < p.rest.length := by
  have hat : p.At (t.encode ++ encodeTerms ts) := ⟨hp, by rw [h]; exact List.prefix_refl _⟩
  have hrest : (p.advance t.encode.length).rest = encodeTerms ts := by
    rw [ByteCursor.rest_advance, h, encodeTerms, List.drop_left]
  refine ⟨_, parseNext_cons ht hp h, hat.left.length_le, hrest, ?_⟩
  have hpos := t.length_encode_pos
  rw [hrest, h, encodeTerms, List.length_append]
  omega

lemma collectTerms_of_rest (ts : List Term) (hts : TermsWellFormed ts) {p : AmlParser} {fuel : Nat}
    (hp : p.cursor ≤ p.bytes.length) (h : p.rest = encodeTerms ts) (hfuel : p.rest.length < fuel) :
    collectTerms fuel p = some (.ok (ts.map Term.parsed)) := by
  induction fuel generalizing p ts with
  | zero => exact absurd hfuel (Nat.not_lt_zero _)
  | succ fuel ih =>
    cases ts with
    | nil => simp only [collectTerms, parseNext_nil h, List.map_nil]
    | cons t ts =>
      obtain ⟨q, hrun, hq, hrest, hlt⟩ := parseNext_encodeTerms hts.1 hp h
      have hnext := ih ts hts.2 hq hrest (hlt.trans_le (Nat.le_of_lt_succ hfuel))
      simp only [collectTerms, hrun, hnext]
      rfl

namespace DeviceProperties

/-- Only names are used up. -/
lemma addTerm_parsed (acc : DeviceProperties) (t : Term) :
    ∃ acc', acc.addTerm t.parsed = some acc' ∧
      (acc'.subTerms = acc.subTerms ++ [t.parsed] ∨
        ((∃ name value, t = .name name value) ∧ acc'.subTerms = acc.subTerms)) := by
  cases t with
  | name name value =>
    simp only [Term.parsed, addTerm]
    split_ifs
    · exact ⟨_, rfl, .inr ⟨⟨name, value, rfl⟩, rfl⟩⟩
    · exact ⟨_, rfl, .inr ⟨⟨name, value, rfl⟩, rfl⟩⟩
    · exact ⟨_, rfl, .inr ⟨⟨name, value, rfl⟩, rfl⟩⟩
    · obtain ⟨rss, hrss⟩ := Option.isSome_iff_exists.mp (crsOf_isSome value.value)
      rw [hrss]
      exact ⟨_, rfl, .inr ⟨⟨name, value, rfl⟩, rfl⟩⟩
    · exact ⟨_, rfl, .inl rfl⟩
  | _ => exact ⟨_, rfl, .inl rfl⟩

lemma foldTerms_parsed (ts : List Term) (hts : TermsWellFormed ts) {p : AmlParser} {fuel : Nat}
    (hp : p.cursor ≤ p.bytes.length) (h : p.rest = encodeTerms ts) (hfuel : p.rest.length < fuel)
    (acc : DeviceProperties) :
    foldTerms fuel p (.ok acc) = ((ts.map Term.parsed).foldlM addTerm acc).map .ok := by
  induction fuel generalizing p ts acc with
  | zero => exact absurd hfuel (Nat.not_lt_zero _)
  | succ fuel ih =>
    cases ts with
    | nil =>
      simp only [foldTerms, parseNext_nil h]
      rfl
    | cons t ts =>
      obtain ⟨q, hrun, hq, hrest, hlt⟩ := parseNext_encodeTerms hts.1 hp h
      have hnext := ih ts hts.2 hq hrest (hlt.trans_le (Nat.le_of_lt_succ hfuel))
      simp only [foldTerms, hrun, foldTerm, List.map_cons, List.foldlM_cons]
      cases acc.addTerm t.parsed with
      | none => rfl
      | some acc' => exact hnext acc'

lemma foldlM_addTerm (ts : List Term) (acc : DeviceProperties) :
    ∃ props as, (ts.map Term.parsed).foldlM addTerm acc = some props ∧
      props.subTerms = acc.subTerms ++ as ∧ Thinned ts as := by
  induction ts generalizing acc with
  | nil => exact ⟨acc, [], rfl, by simp, .nil⟩
  | cons t ts ih =>
    obtain ⟨acc', hadd, hsub⟩ := acc.addTerm_parsed t
    obtain ⟨props, as, hfold, hprops, hthin⟩ := ih acc'
    have hfold' : ((t :: ts).map Term.parsed).foldlM addTerm acc = some props := by
      rw [List.map_cons, List.foldlM_cons, hadd]
      exact hfold
    rcases hsub with hsub | ⟨⟨name, value, rfl⟩, hsub⟩
    · exact ⟨props, t.parsed :: as, hfold', by simp [hprops, hsub], .keep t hthin⟩
    · exact ⟨props, as, hfold', by rw [hprops, hsub], .drop name value hthin⟩

lemma fromAml_eq_foldlM {ts : List Term} (hts : TermsWellFormed ts) :
    let p := AmlParser.new (encodeTerms ts)
    fromAml (p.rest.length + 1) p = ((ts.map Term.parsed).foldlM addTerm {}).map .ok :=
  foldTerms_parsed ts hts (Nat.zero_le _) rfl (Nat.lt_succ_self _) {}

/-- The terms of a body that are left for the tree builder. -/
lemma fromAml_encodeTerms {ts : List Term} (hts : TermsWellFormed ts) :
    let p := AmlParser.new (encodeTerms ts)
    ∃ props, fromAml (p.rest.length + 1) p = some (.ok props) ∧ Thinned ts props.subTerms ∧
      weights props.subTerms ≤ p.rest.length := by
  intro p
  obtain ⟨props, as, hprops, hsub, hthin⟩ := foldlM_addTerm ts {}
  have hfold : fromAml (p.rest.length + 1) p = some (.ok props) := by
    rw [fromAml_eq_foldlM hts, hprops]
    rfl
  obtain ⟨r, hr, hweights⟩ := fromAml_spec p (Nat.lt_succ_self _)
  cases hfold.symm.trans hr
  exact ⟨props, hfold, hsub ▸ hthin, hweights props rfl⟩

end DeviceProperties

lemma collectTerms_encodeTerms {ts : List Term} (hts : TermsWellFormed ts) :
    let p := AmlParser.new (encodeTerms ts)
    collectTerms (p.rest.length + 1) p = some (.ok (ts.map Term.parsed)) ∧
      weights (ts.map Term.parsed) ≤ p.rest.length := by
  intro p
  have hcollect := collectTerms_of_rest ts hts (p := p) (Nat.zero_le _) rfl (Nat.lt_succ_self _)
  obtain ⟨r, hr, hweights⟩ := collectTerms_spec _ p (Nat.lt_succ_self _)
  cases hcollect.symm.trans hr
  exact ⟨hcollect, hweights _ rfl⟩

/-! ### Adding a device -/

/-- The parents of the nodes stay, and the new node has the given one. -/
lemma addDevice_parents (tree : DeviceTree) (parent : Option DeviceId)
    (hparent : ∀ id ∈ parent, id.idx < tree.nodes.length) (cls : DeviceClass)
    (compatible : List String) (resources : List Resource) (priority : DeviceInitPriority) :
    ∃ tree', tree.addDevice parent cls compatible resources priority =
        some (⟨tree.nodes.length⟩, tree') ∧
      tree'.nodes.map DeviceNode.parent = tree.nodes.map DeviceNode.parent ++ [parent] := by
  cases parent with
  | none => exact ⟨_, rfl, by simp⟩
  | some id =>
    have hlt := hparent id rfl
    rw [DeviceTree.addDevice, DeviceTree.pushChild]
    rw [List.getElem?_append_left hlt, List.getElem?_eq_getElem hlt]
    refine ⟨_, rfl, ?_⟩
    -- the entry of the parent is replaced by one with the same parent
    have hset : (tree.nodes.map DeviceNode.parent).set id.idx (tree.nodes[id.idx]).parent =
        tree.nodes.map DeviceNode.parent := by
      rw [← List.map_set, List.set_getElem_self]
    simp [List.map_set, List.set_append_left, hlt, hset]

namespace Build

variable {α β : Type}

lemma run_bind_ok {m : Build α} {f : α → Build β} {tb tb' : TreeBuilder} {a : α}
    (h : m.run tb = some (.ok a, tb')) : (m >>= f).run tb = (f a).run tb' := by
  show (Build.bind m f).run tb = _
  simp only [Build.bind, h]

end Build

/-! ### The run -/

def Frame.Shown (f : Frame) : Prop := readPath f.text = f.path.map NameSeg.display

def Decl.Shown (d : Decl) : Prop := readPath d.text = d.path.map NameSeg.display

/-- `parentId` is a device with the text of the innermost frame that names one. -/
def Leads (base : Nat) (ds : List Decl) (frames : List Frame) (parentId : Option DeviceId) :
    Prop :=
  match frames.find? (Frame.namesDevice ds) with
  | some f => ∃ j d, parentId = some ⟨base + j⟩ ∧ ds[j]? = some d ∧ d.text = f.text
  | none   => parentId = none

/-- Where a list of terms stands, after the devices `ds`. -/
structure Context (base : Nat) (ds : List Decl) (frames : List Frame) (currentPath : String)
    (parentId : Option DeviceId) : Prop where
  before_le : ∀ f ∈ frames, f.before ≤ ds.length
  shown : ∀ f ∈ frames, f.Shown
  leads : Leads base ds frames parentId
  join : ∀ child, joinPath currentPath child =
    joinPath (scopeText frames) child

structure Built (base : Nat) (ds : List Decl) (tb : TreeBuilder) : Prop where
  length : tb.tree.nodes.length = base + ds.length
  parent : ∀ i d, ds[i]? = some d → ∃ parentId,
    (tb.tree.nodes.map DeviceNode.parent)[base + i]? = some parentId ∧
      Leads base ds d.frames parentId
  before_le : ∀ d ∈ ds, ∀ f ∈ d.frames, f.before ≤ ds.length
  shown : ∀ d ∈ ds, d.Shown ∧ ∀ f ∈ d.frames, f.Shown
  mapped : ∀ text id, tb.scopeMap text = some id →
    ∃ j d, id = ⟨base + j⟩ ∧ ds[j]? = some d ∧ d.text = text
  known : ∀ d ∈ ds, tb.scopeMap d.text ≠ none

variable {base : Nat} {ds es : List Decl} {frames : List Frame} {currentPath : String}
  {parentId : Option DeviceId} {tb : TreeBuilder}

lemma namesDevice_append {f : Frame} (hf : f.before ≤ ds.length) (es : List Decl) :
    f.namesDevice (ds ++ es) = f.namesDevice ds := by
  rw [Frame.namesDevice, Frame.namesDevice, List.take_append_of_le_length hf]

lemma find?_namesDevice_append (h : ∀ f ∈ frames, f.before ≤ ds.length) (es : List Decl) :
    frames.find? (Frame.namesDevice (ds ++ es)) = frames.find? (Frame.namesDevice ds) := by
  induction frames with
  | nil => rfl
  | cons f frames ih =>
    rw [List.find?_cons, List.find?_cons, namesDevice_append (h f (.head _)),
      ih fun f hf => h f (.tail _ hf)]

lemma getElem?_append_of_some {j : Nat} {d : Decl} (h : ds[j]? = some d) (es : List Decl) :
    (ds ++ es)[j]? = some d := by
  rw [List.getElem?_append_left (List.getElem?_eq_some_iff.mp h).1, h]

lemma Leads.append (h : Leads base ds frames parentId) (hf : ∀ f ∈ frames, f.before ≤ ds.length)
    (es : List Decl) : Leads base (ds ++ es) frames parentId := by
  rw [Leads, find?_namesDevice_append hf]
  rw [Leads] at h
  cases hfind : frames.find? (Frame.namesDevice ds) with
  | none =>
    rw [hfind] at h
    exact h
  | some f =>
    rw [hfind] at h
    obtain ⟨j, d, hid, hd, htext⟩ := h
    exact ⟨j, d, hid, getElem?_append_of_some hd es, htext⟩

section

variable (h : Context base ds frames currentPath parentId)

include h

lemma Context.append (es : List Decl) :
    Context base (ds ++ es) frames currentPath parentId where
  before_le := fun f hf => (h.before_le f hf).trans (by simp)
  shown := h.shown
  leads := h.leads.append h.before_le es
  join := h.join

lemma Context.shown_inner (name : NamePath)
    (before : Nat) : (innerFrame frames name before).Shown := by
  apply readPath_joinPath
  cases frames with
  | nil => decide +kernel
  | cons f frames => exact h.shown f (.head _)

lemma Context.parent_lt (hb : Built base ds tb) :
    ∀ id ∈ parentId, id.idx < tb.tree.nodes.length := by
  intro id hid
  have hleads := h.leads
  rw [Leads] at hleads
  split at hleads
  · obtain ⟨j, d, hj, hd, -⟩ := hleads
    cases hid.symm.trans hj
    rw [hb.length]
    exact Nat.add_lt_add_left (List.getElem?_eq_some_iff.mp hd).1 base
  · rw [hleads] at hid
    cases hid

/-- The body of a `Scope`: its text names a device, or the parent stays. -/
lemma Context.scope (hb : Built base ds tb)
    (name : NamePath) : Context base ds (innerFrame frames name ds.length :: frames)
      (joinPath currentPath name.text)
      ((tb.scopeMap (joinPath currentPath name.text)).or parentId) := by
  refine ⟨?_, ?_, ?_, ?_⟩
  · intro f hf
    rcases List.mem_cons.mp hf with rfl | hf
    · exact le_rfl
    · exact h.before_le f hf
  · intro f hf
    rcases List.mem_cons.mp hf with rfl | hf
    · exact h.shown_inner name _
    · exact h.shown f hf
  · have htext : (innerFrame frames name ds.length).text =
        joinPath currentPath name.text := (h.join name.text).symm
    have hnames : (innerFrame frames name ds.length).namesDevice ds =
        (ds.map Decl.text).contains (joinPath currentPath name.text) := by
      rw [Frame.namesDevice, htext]
      simp [innerFrame]
    rw [Leads, List.find?_cons, hnames]
    cases hmap : tb.scopeMap (joinPath currentPath name.text) with
    | none =>
      have hnot : (ds.map Decl.text).contains (joinPath currentPath name.text) =
          false := by
        rw [Bool.eq_false_iff]
        intro hmem
        obtain ⟨d, hd, hdtext⟩ := List.mem_map.mp (List.contains_iff_mem.mp hmem)
        rw [← hdtext] at hmap
        exact hb.known d hd hmap
      rw [hnot]
      exact h.leads
    | some id =>
      obtain ⟨j, d, rfl, hd, hdtext⟩ := hb.mapped _ id hmap
      have hmem := List.contains_iff_mem.mpr (List.mem_map.mpr ⟨d, List.mem_of_getElem? hd, hdtext⟩)
      rw [hmem]
      exact ⟨j, d, rfl, hd, hdtext.trans htext.symm⟩
  · intro child
    rw [h.join name.text]
    rfl

end

def newDecl (frames : List Frame) (name : NamePath) (before : Nat) : Decl :=
  { path := (innerFrame frames name before).path
    text := (innerFrame frames name before).text
    frames := frames }

lemma Built.device (hb : Built base ds tb) (h : Context base ds frames currentPath parentId)
    (name : NamePath) {tree : DeviceTree}
    (htree : tree.nodes.map DeviceNode.parent =
      tb.tree.nodes.map DeviceNode.parent ++ [parentId]) :
    Built base (ds ++ [newDecl frames name (ds.length + 1)])
      { tree := tree
        scopeMap := update tb.scopeMap (joinPath currentPath name.text)
          (some ⟨tb.tree.nodes.length⟩) } := by
  have htext : (newDecl frames name (ds.length + 1)).text =
      joinPath currentPath name.text := (h.join name.text).symm
  have hnodes : (tb.tree.nodes.map DeviceNode.parent).length = base + ds.length := by
    rw [List.length_map, hb.length]
  refine ⟨?_, ?_, ?_, ?_, ?_, ?_⟩
  · have hlen := congrArg List.length htree
    rw [List.length_append, hnodes, List.length_map] at hlen
    rw [hlen, List.length_append, Nat.add_assoc]
    rfl
  · intro i d hd
    by_cases hi : i < ds.length
    · rw [List.getElem?_append_left hi] at hd
      obtain ⟨id, hid, hleads⟩ := hb.parent i d hd
      have hmem := List.mem_of_getElem? hd
      refine ⟨id, ?_, hleads.append (hb.before_le d hmem) _⟩
      rw [htree, List.getElem?_append_left (hnodes ▸ Nat.add_lt_add_left hi base), hid]
    · have hlt := (List.getElem?_eq_some_iff.mp hd).1
      rw [List.length_append, List.length_singleton] at hlt
      obtain rfl : i = ds.length := le_antisymm (Nat.le_of_lt_succ hlt) (Nat.le_of_not_lt hi)
      rw [List.getElem?_concat_length] at hd
      cases hd
      refine ⟨parentId, ?_, h.leads.append h.before_le _⟩
      rw [htree, ← hnodes, List.getElem?_concat_length]
  · intro d hd f hf
    rw [List.length_append, List.length_singleton]
    rcases List.mem_append.mp hd with hd | hd
    · exact Nat.le_succ_of_le (hb.before_le d hd f hf)
    · obtain rfl := List.mem_singleton.mp hd
      exact Nat.le_succ_of_le (h.before_le f hf)
  · intro d hd
    rcases List.mem_append.mp hd with hd | hd
    · exact hb.shown d hd
    · obtain rfl := List.mem_singleton.mp hd
      exact ⟨h.shown_inner name (ds.length + 1), h.shown⟩
  · intro text id hid
    by_cases htext' : text = joinPath currentPath name.text
    · subst htext'
      simp only [update_self, Option.some.injEq] at hid
      refine ⟨ds.length, _, ?_, List.getElem?_concat_length, htext⟩
      rw [← hid, hb.length]
    · simp only [update_of_ne htext'] at hid
      obtain ⟨j, d, hj, hd, hdtext⟩ := hb.mapped text id hid
      exact ⟨j, d, hj, getElem?_append_of_some hd _, hdtext⟩
  · intro d hd
    by_cases htext' : d.text = joinPath currentPath name.text
    · simp [htext']
    · simp only [update_of_ne htext']
      rcases List.mem_append.mp hd with hd | hd
      · exact hb.known d hd
      · obtain rfl := List.mem_singleton.mp hd
        exact absurd htext htext'

lemma Context.device (h : Context base ds frames currentPath parentId) (name : NamePath) :
    Context base (ds ++ [newDecl frames name (ds.length + 1)])
      (innerFrame frames name (ds.length + 1) :: frames)
      (joinPath currentPath name.text) (some ⟨base + ds.length⟩) := by
  refine ⟨?_, ?_, ?_, ?_⟩
  · intro f hf
    rw [List.length_append, List.length_singleton]
    rcases List.mem_cons.mp hf with rfl | hf
    · exact le_rfl
    · exact Nat.le_succ_of_le (h.before_le f hf)
  · intro f hf
    rcases List.mem_cons.mp hf with rfl | hf
    · exact h.shown_inner name _
    · exact h.shown f hf
  · have hnames : (innerFrame frames name (ds.length + 1)).namesDevice
        (ds ++ [newDecl frames name (ds.length + 1)]) = true := by
      rw [Frame.namesDevice, List.contains_iff_mem, List.mem_map]
      refine ⟨newDecl frames name (ds.length + 1), ?_, rfl⟩
      rw [List.take_of_length_le (by simp [innerFrame])]
      exact List.mem_append_right ds (List.mem_singleton_self _)
    rw [Leads, List.find?_cons, hnames]
    exact ⟨ds.length, _, rfl, List.getElem?_concat_length, rfl⟩
  · intro child
    rw [h.join name.text]
    rfl

namespace TreeBuilder

open Build

lemma run_ofResult_ok {α : Type} {a : α} {r : Option (Except String α)} (h : r = some (.ok a)) :
    (ofResult r).run tb = some (.ok a, tb) := by
  rw [h]
  rfl

/-- One term. The recursive call is made on the terms of the body. -/
lemma run_processTerm {recur : List AmlTerm → String → Option DeviceId → Build Unit} {t : Term}
    (ht : t.WellFormed)
    (hrecur : ∀ ts as, Thinned ts as → TermsWellFormed ts → weights as < t.parsed.weight →
      ∀ ds frames path id tb, Built base ds tb → Context base ds frames path id →
        ∃ tb', (recur as path id).run tb = some (.ok (), tb') ∧
          Built base (ds ++ termsDecls ds.length frames ts) tb')
    (hb : Built base ds tb) (h : Context base ds frames currentPath parentId) :
    ∃ tb', (processTerm recur currentPath parentId t.parsed).run tb = some (.ok (), tb') ∧
      Built base (ds ++ t.decls ds.length frames) tb' := by
  cases t with
  | scope w name body =>
    obtain ⟨-, hbody⟩ := ht
    obtain ⟨hcollect, hweights⟩ := collectTerms_encodeTerms hbody
    obtain ⟨tb', hrun, hb'⟩ := hrecur body _ (thinned_map body) hbody
      (Nat.lt_succ_of_le hweights) ds _ _ _ tb hb (h.scope hb name)
    refine ⟨tb', ?_, hb'⟩
    simp only [Term.parsed, processTerm]
    rw [run_bind_ok (m := Build.get) rfl, run_bind_ok (run_ofResult_ok hcollect)]
    exact hrun
  | device w name body =>
    obtain ⟨-, hbody⟩ := ht
    obtain ⟨props, hprops, hthin, hweights⟩ := DeviceProperties.fromAml_encodeTerms hbody
    obtain ⟨tree, hadd, htree⟩ := addDevice_parents tb.tree parentId (h.parent_lt hb)
      props.classify.1 (props.hid.toList ++ props.cids) props.resources props.classify.2
    have hadd' : (addDevice parentId props.classify (props.hid.toList ++ props.cids)
        props.resources).run tb = some (.ok ⟨tb.tree.nodes.length⟩, { tb with tree }) := by
      simp only [addDevice, hadd]
    have hb₁ := hb.device h name htree
    have h₁ := h.device name
    rw [← hb.length] at h₁
    obtain ⟨tb', hrun, hb'⟩ := hrecur body _ hthin hbody (Nat.lt_succ_of_le hweights) _ _ _ _ _
      hb₁ h₁
    refine ⟨tb', ?_, ?_⟩
    · simp only [Term.parsed, processTerm]
      rw [run_bind_ok (run_ofResult_ok hprops), run_bind_ok hadd', run_bind_ok rfl]
      exact hrun
    · rw [List.append_assoc, List.length_append, List.length_singleton] at hb'
      exact hb'
  | name name value => exact ⟨tb, rfl, by simpa [Term.decls] using hb⟩
  | method w name flags code => exact ⟨tb, rfl, by simpa [Term.decls] using hb⟩
  | opRegion name space offset length => exact ⟨tb, rfl, by simpa [Term.decls] using hb⟩
  | field w region flags body => exact ⟨tb, rfl, by simpa [Term.decls] using hb⟩

lemma run_processTerms (fuel : Nat) : ∀ ts as, Thinned ts as → TermsWellFormed ts →
    weights as < fuel → ∀ ds frames path id tb, Built base ds tb → Context base ds frames path id →
      ∃ tb', (processTerms fuel as path id).run tb = some (.ok (), tb') ∧
        Built base (ds ++ termsDecls ds.length frames ts) tb' := by
  induction fuel with
  | zero => exact fun _ _ _ _ hfuel => absurd hfuel (Nat.not_lt_zero _)
  | succ fuel ih =>
    intro ts as hthin hts hfuel ds frames path id tb hb h
    induction hthin generalizing ds tb with
    | nil => exact ⟨tb, rfl, by simpa [termsDecls] using hb⟩
    | @keep ts as t hthin _ =>
      have hpos : 0 < t.parsed.weight := Nat.succ_pos _
      rw [weights_cons] at hfuel
      obtain ⟨tb₁, hrun₁, hb₁⟩ := run_processTerm hts.1
        (fun ts as hthin hts hlt => ih ts as hthin hts (by omega)) hb h
      obtain ⟨tb₂, hrun₂, hb₂⟩ := ih ts as hthin hts.2 (by omega) _ frames path id tb₁ hb₁
        (h.append _)
      refine ⟨tb₂, ?_, ?_⟩
      · rw [processTerms, run_bind_ok hrun₁]
        exact hrun₂
      · rw [List.append_assoc, List.length_append] at hb₂
        exact hb₂
    | drop name value hthin ihthin =>
      obtain ⟨tb', hrun, hb'⟩ := ihthin hts.2 hfuel ds tb hb h
      refine ⟨tb', hrun, ?_⟩
      simpa [termsDecls, Term.decls] using hb'

end TreeBuilder

/-! ### Nesting and the namespace -/

lemma path_eq_of_text {d : Decl} {f : Frame} (hd : d.Shown) (hf : f.Shown) (h : d.text = f.text) :
    d.path = f.path := by
  apply NameSeg.display_injective.list_map
  rw [← hd, ← hf, h]

lemma Built.namespaceParent_iff (hb : Built base ds tb) {i : Nat} {d : Decl} {node : DeviceNode}
    (hd : ds[i]? = some d) (hnode : tb.tree.nodes[base + i]? = some node) :
    NamespaceParent base ds d node.parent ↔ d.Nested ds := by
  obtain ⟨id, hid, hleads⟩ := hb.parent i d hd
  rw [List.getElem?_map, hnode] at hid
  obtain rfl : node.parent = id := Option.some.inj hid
  have hshown := hb.shown d (List.mem_of_getElem? hd)
  rw [Leads] at hleads
  rw [Decl.Nested]
  cases hfind : d.frames.find? (Frame.namesDevice ds) with
  | none =>
    rw [hfind] at hleads
    rw [hleads]
    rfl
  | some f =>
    rw [hfind] at hleads
    obtain ⟨j, e, hj, he, htext⟩ := hleads
    have hpath := path_eq_of_text (hb.shown e (List.mem_of_getElem? he)).1
      (hshown.2 f (List.mem_of_find?_eq_some hfind)) htext
    rw [hj]
    dsimp only
    rw [← hpath]
    constructor
    · rintro ⟨k, e', hk, he', hnearest⟩
      obtain rfl : j = k := Nat.add_left_cancel hk
      cases he.symm.trans he'
      exact hnearest
    · intro hnearest
      exact ⟨j, e, rfl, he, hnearest⟩

/-- Every `Device` term has added one node, and its parent is the one of the namespace. -/
structure ParentsRight (tree tree' : DeviceTree) (ds : List Decl) : Prop where
  length : tree'.nodes.length = tree.nodes.length + ds.length
  parent : ∀ i d, ds[i]? = some d → ∃ node, tree'.nodes[tree.nodes.length + i]? = some node ∧
    NamespaceParent tree.nodes.length ds d node.parent

lemma Built.parentsRight_iff {tree : DeviceTree} (hb : Built tree.nodes.length ds tb) :
    ParentsRight tree tb.tree ds ↔ ∀ d ∈ ds, d.Nested ds := by
  constructor
  · rintro ⟨-, hparent⟩ d hd
    obtain ⟨i, hi⟩ := List.getElem?_of_mem hd
    obtain ⟨node, hnode, hright⟩ := hparent i d hi
    exact (hb.namespaceParent_iff hi hnode).mp hright
  · intro hnested
    refine ⟨hb.length, fun i d hd => ?_⟩
    have hi : tree.nodes.length + i < tb.tree.nodes.length := by
      rw [hb.length]
      exact Nat.add_lt_add_left (List.getElem?_eq_some_iff.mp hd).1 _
    have hnode := List.getElem?_eq_getElem hi
    exact ⟨_, hnode, (hb.namespaceParent_iff hd hnode).mpr (hnested d (List.mem_of_getElem? hd))⟩

lemma exists_built {ts : List Term} (hts : TermsWellFormed ts) (tree : DeviceTree) {root : String}
    (hroot : root = "" ∨ root = "\\") {fuel : Nat}
    (hfuel : weights (ts.map Term.parsed) < fuel) :
    ∃ tb, (processTerms fuel (ts.map Term.parsed) root none).run
        ⟨tree, fun _ => none⟩ = some (.ok (), tb) ∧
      Built tree.nodes.length (termsDecls 0 [] ts) tb := by
  have hb : Built tree.nodes.length [] ⟨tree, fun _ => none⟩ := by
    refine ⟨rfl, ?_, ?_, ?_, ?_, ?_⟩ <;> simp
  have h : Context tree.nodes.length [] [] root none := by
    refine ⟨by simp, by simp, rfl, fun child => ?_⟩
    rcases hroot with rfl | rfl
    · simp [joinPath, scopeText]
    · rfl
  exact run_processTerms fuel ts _ (thinned_map ts) hts hfuel [] [] root none _ hb h

/-- Devices get the parents their paths say exactly if each stands directly in its namespace
parent. -/
theorem processTerms_parentsRight_iff {ts : List Term} (hts : TermsWellFormed ts)
    (tree : DeviceTree) {root : String} (hroot : root = "" ∨ root = "\\") {fuel : Nat}
    (hfuel : weights (ts.map Term.parsed) < fuel) :
    ∃ tb, (processTerms fuel (ts.map Term.parsed) root none).run
        ⟨tree, fun _ => none⟩ = some (.ok (), tb) ∧
      (ParentsRight tree tb.tree (termsDecls 0 [] ts) ↔
        ∀ d ∈ termsDecls 0 [] ts, d.Nested (termsDecls 0 [] ts)) := by
  obtain ⟨tb, hrun, hb⟩ := exists_built hts tree hroot hfuel
  exact ⟨tb, hrun, hb.parentsRight_iff⟩

instance : DecidableEq NameSeg := fun s t =>
  decidable_of_iff (s.encode = t.encode) (by cases s; cases t; simp [NameSeg.encode])

instance (p q : List NameSeg) : Decidable (Above p q) :=
  inferInstanceAs (Decidable (p <+: q ∧ p ≠ q))

instance (ds : List Decl) (q p : List NameSeg) : Decidable (Nearest ds q p) :=
  inferInstanceAs (Decidable (Above p q ∧ ∀ e ∈ ds, Above e.path q → e.path.length ≤ p.length))

instance (ds : List Decl) (d : Decl) : Decidable (d.Nested ds) :=
  match h : d.frames.find? (Frame.namesDevice ds) with
  | some f => decidable_of_iff (Nearest ds d.path f.path) (by rw [Decl.Nested, h])
  | none   => decidable_of_iff (∀ e ∈ ds, ¬ Above e.path d.path) (by rw [Decl.Nested, h])

def segA : NameSeg := ⟨0x41, 0x5F, 0x5F, 0x5F, by decide, by decide⟩

def segB : NameSeg := ⟨0x42, 0x5F, 0x5F, 0x5F, by decide, by decide⟩

/-- `Device (A) { Device (B) {} }  Scope (\A.B) { Device (A) {} }`. -/
def nestedTable : List Term :=
  [.device .w0 ⟨[], .single segA⟩ [.device .w0 ⟨[], .single segB⟩ []],
    .scope .w0 ⟨[.root], .dual segA segB⟩ [.device .w0 ⟨[], .single segA⟩ []]]

theorem parentsRight_nestedTable : TermsWellFormed nestedTable ∧
    ∃ tb, (processTerms 100 (nestedTable.map Term.parsed) "\\" none).run
        ⟨{}, fun _ => none⟩ = some (.ok (), tb) ∧
      ParentsRight {} tb.tree (termsDecls 0 [] nestedTable) := by
  have hts : TermsWellFormed nestedTable := by
    simp only [nestedTable, TermsWellFormed, Term.WellFormed]
    decide
  have hfuel : weights (nestedTable.map Term.parsed) < 100 := by decide +kernel
  obtain ⟨tb, hrun, hiff⟩ := processTerms_parentsRight_iff hts {} (.inr rfl) hfuel
  exact ⟨hts, tb, hrun, hiff.mpr (by decide +kernel)⟩

/-- `Device (A) {}  Device (\A.B) {}`. -/
def absoluteTable : List Term :=
  [.device .w0 ⟨[], .single segA⟩ [], .device .w0 ⟨[.root], .dual segA segB⟩ []]

theorem not_parentsRight_absoluteTable : TermsWellFormed absoluteTable ∧
    ∃ tb, (processTerms 100 (absoluteTable.map Term.parsed) "\\" none).run
        ⟨{}, fun _ => none⟩ = some (.ok (), tb) ∧
      ¬ ParentsRight {} tb.tree (termsDecls 0 [] absoluteTable) := by
  have hts : TermsWellFormed absoluteTable := by
    simp only [absoluteTable, TermsWellFormed, Term.WellFormed]
    decide
  have hfuel : weights (absoluteTable.map Term.parsed) < 100 := by decide +kernel
  obtain ⟨tb, hrun, hb⟩ := exists_built hts {} (.inr rfl) hfuel
  refine ⟨hts, tb, hrun, ?_⟩
  rw [hb.parentsRight_iff]
  decide +kernel

end Mars.Aml
