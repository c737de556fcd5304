import Mars.Aml.Parents
import Mars.Aml.EisaId

/-!
# The compatible ids of a device

`parse_data_object` returns the elements of a package as the bytes of a buffer, and `from_aml` looks
for ids in packages only, so the ids of a package are lost. An EISA id is read with its bytes in the
wrong order. Names of other objects that end in `_CID` are taken for names of the device.
-/

namespace Mars.Aml

open DeviceProperties

/-! ### Values of `_CID` -/

/-- A string, or an EISA id in a dword. -/
inductive CompatibleId where
  | string (s : String)
  | eisa (id : EisaId)

def CompatibleId.object : CompatibleId → DataObject
  | string s => .string s
  | eisa id  => .dword id.stored

def CompatibleId.text : CompatibleId → String
  | string s => s
  | eisa id  => id.text

inductive CidValue where
  | single (id : CompatibleId)
  | package (w : PkgWidth) (numElems : UInt8) (ids : List CompatibleId)
  | varPackage (w : PkgWidth) (numElems : DataObject) (ids : List CompatibleId)

namespace CidValue

def object : CidValue → DataObject
  | single id          => id.object
  | package w n ids    => .package w n (ids.map CompatibleId.object)
  | varPackage w n ids => .varPackage w n (ids.map CompatibleId.object)

def texts : CidValue → List String
  | single id          => [id.text]
  | package _ _ ids    => ids.map CompatibleId.text
  | varPackage _ _ ids => ids.map CompatibleId.text

def packed : CidValue → List String
  | single _           => []
  | package _ _ ids    => ids.map CompatibleId.text
  | varPackage _ _ ids => ids.map CompatibleId.text

/-- A single EISA id has the same bytes from both ends. -/
def Symmetric : CidValue → Prop
  | single (.eisa id) => id.bytes.reverse = id.bytes
  | _                 => True

end CidValue

lemma underscore_ok : isLeadNameChar 0x5F := by decide

def segCid : NameSeg := ⟨0x5F, 0x43, 0x49, 0x44, underscore_ok, by decide⟩

def cidPath : NamePath := ⟨[], .single segCid⟩

/-- The string that a term adds to the compatible ids. -/
def Term.cidText? : Term → Option String
  | .name n v => if endsWith n.text "_CID" then v.value.asString else none
  | _         => none

/-! ### What is collected -/

/-- No value that comes out of the parser is a package. -/
lemma cidsOf_value (v : DataObject) : cidsOf v.value = v.value.asString.toList := by
  cases v <;> rfl

lemma endsWith_iff {s suffix : String} :
    endsWith s suffix = true ↔ suffix.toList <:+ s.toList := List.isSuffixOf_iff_suffix

lemma endsWith_hid_false {s : String} (h : endsWith s "_HID" = true) :
    endsWith s "_CID" = false := by
  have hcid : "_CID".toList = ['_', 'C', 'I', 'D'] := by simp
  have hsuffix := endsWith_iff.mp h
  rw [← Bool.not_eq_true, endsWith_iff, hcid]
  intro hsuffix'
  have heq := List.suffix_of_suffix_length_le hsuffix hsuffix' le_rfl
  exact absurd (heq.eq_of_length rfl) (by decide)

namespace DeviceProperties

lemma addTerm_cids {acc acc' : DeviceProperties} {t : Term}
    (h : acc.addTerm t.parsed = some acc') : acc'.cids = acc.cids ++ t.cidText?.toList := by
  cases t with
  | name name value =>
    simp only [Term.parsed, addTerm] at h
    rw [Term.cidText?, NamePath.text]
    split_ifs at h with hhid hcid huid hcrs
    · cases h
      simp [endsWith_hid_false hhid]
    · cases h
      rw [if_pos hcid, cidsOf_value]
    · cases h
      simp [hcid]
    · obtain ⟨rss, -, rfl⟩ := Option.map_eq_some_iff.mp h
      simp [hcid]
    · cases h
      simp [hcid]
  | _ =>
    cases h
    exact (List.append_nil _).symm

lemma foldlM_addTerm_cids {ts : List Term} {acc props : DeviceProperties}
    (h : (ts.map Term.parsed).foldlM addTerm acc = some props) :
    props.cids = acc.cids ++ ts.filterMap Term.cidText? := by
  induction ts generalizing acc with
  | nil =>
    cases h
    exact (List.append_nil _).symm
  | cons t ts ih =>
    obtain ⟨acc', hadd, hrest⟩ := Option.bind_eq_some_iff.mp h
    rw [ih hrest, addTerm_cids hadd, List.append_assoc, List.filterMap_cons]
    cases t.cidText? <;> rfl

end DeviceProperties

/-- The strings of the body are collected in order, those of the `_CID` unless it is a package. -/
lemma exists_fromAml_cids {pre post : List Term} {v : CidValue}
    (hts : TermsWellFormed (pre ++ .name cidPath v.object :: post)) :
    let p := AmlParser.new (encodeTerms (pre ++ .name cidPath v.object :: post))
    ∃ props, fromAml (p.rest.length + 1) p = some (.ok props) ∧
      props.cids = pre.filterMap Term.cidText? ++ (v.object.value.asString.toList ++
        post.filterMap Term.cidText?) := by
  intro p
  obtain ⟨props, -, hprops, -, -⟩ := foldlM_addTerm (pre ++ .name cidPath v.object :: post) {}
  refine ⟨props, ?_, ?_⟩
  · rw [fromAml_eq_foldlM hts, hprops]
    rfl
  · have hcid : endsWith cidPath.text "_CID" = true := by decide
    have hown : (Term.name cidPath v.object).cidText? = v.object.value.asString := by
      rw [Term.cidText?, if_pos hcid]
    rw [foldlM_addTerm_cids hprops, List.filterMap_append, List.filterMap_cons, hown]
    cases v.object.value.asString <;> rfl

/-- A single id is read, those of a package are missing. -/
lemma CidValue.asString_object (v : CidValue) :
    (∃ id text, v = .single id ∧ v.object.value.asString = some text ∧
        (text = id.text ↔ v.Symmetric)) ∨
      v.object.value.asString = none ∧ v.texts = v.packed ∧ v.Symmetric := by
  cases v with
  | single id =>
    cases id with
    | string s => exact .inl ⟨_, s, rfl, rfl, by simp [CompatibleId.text, Symmetric]⟩
    | eisa id =>
      have hiff := id.asString_stored_iff
      rw [AmlValue.asString, Option.some_inj] at hiff
      exact .inl ⟨_, _, rfl, rfl, hiff⟩
  | package w n ids => exact .inr ⟨rfl, rfl, trivial⟩
  | varPackage w n ids => exact .inr ⟨rfl, rfl, trivial⟩

lemma append_singleton_eq_iff {α : Type} {l r : List α} {a b : α} :
    l ++ ([a] ++ r) = [b] ↔ l ++ r = [] ∧ a = b := by
  rw [List.append_eq_singleton_iff]
  simp [List.append_eq_nil_iff, and_left_comm, and_comm]

/-- All ids are collected exactly if other names that end in `_CID` stand in for a package and the
bytes of a single EISA id are the same from both ends. Without such names, the value is a string,
an id of that kind or an empty package. -/
theorem fromAml_cids_iff {pre post : List Term} {v : CidValue}
    (hts : TermsWellFormed (pre ++ .name cidPath v.object :: post)) :
    let p := AmlParser.new (encodeTerms (pre ++ .name cidPath v.object :: post))
    ∃ props, fromAml (p.rest.length + 1) p = some (.ok props) ∧
      (props.cids = v.texts ↔
        (pre ++ post).filterMap Term.cidText? = v.packed ∧ v.Symmetric) := by
  intro p
  obtain ⟨props, hprops, hcids⟩ := exists_fromAml_cids hts
  refine ⟨props, hprops, ?_⟩
  rw [hcids, List.filterMap_append]
  rcases v.asString_object with ⟨id, text, rfl, htext, hsym⟩ | ⟨hnone, htexts, hsym⟩
  · rw [htext, ← hsym]
    exact append_singleton_eq_iff
  · rw [hnone, htexts]
    simp [hsym]

/-- A method, and `Name (_CID, EISAID ("PNPD041"))`. -/
theorem fromAml_cids_single :
    let pre : List Term := [.method .w0 ⟨[.parent], .single segA⟩ 0 [0xA4, 0x00]]
    let v : CidValue := .single (.eisa ⟨15, 13, 15, 13, 0, 4, 1⟩)
    let p := AmlParser.new (encodeTerms (pre ++ .name cidPath v.object :: []))
    TermsWellFormed (pre ++ .name cidPath v.object :: []) ∧
      ∃ props, fromAml (p.rest.length + 1) p = some (.ok props) ∧ props.cids = ["PNPD041"] := by
  intro pre v p
  have hts : TermsWellFormed (pre ++ .name cidPath v.object :: []) := by
    simp only [pre, v, List.cons_append, List.nil_append, TermsWellFormed, Term.WellFormed,
      CidValue.object, CompatibleId.object, DataObject.WellFormed]
    decide
  obtain ⟨props, hprops, hiff⟩ := fromAml_cids_iff hts
  exact ⟨hts, props, hprops, hiff.mpr ⟨rfl, rfl⟩⟩

/-- The id of `Name (_CID, Package () {"PNP0A03"})` is lost, that of
`Name (_CID, EISAID ("PNP0A03"))` is another one. -/
theorem fromAml_cids_package :
    let v : CidValue := .package .w0 1 [.string "PNP0A03"]
    let u : CidValue := .single (.eisa EisaId.pciBridge)
    let p := AmlParser.new (encodeTerms ([] ++ .name cidPath v.object :: []))
    let q := AmlParser.new (encodeTerms ([] ++ .name cidPath u.object :: []))
    (TermsWellFormed ([] ++ .name cidPath v.object :: []) ∧
      ∃ props, fromAml (p.rest.length + 1) p = some (.ok props) ∧ props.cids = [] ∧
      v.texts = ["PNP0A03"]) ∧
    TermsWellFormed ([] ++ .name cidPath u.object :: []) ∧
      ∃ props, fromAml (q.rest.length + 1) q = some (.ok props) ∧ props.cids = ["@XJD041"] ∧
      u.texts = ["PNP0A03"] := by
  intro v u p q
  have hts : TermsWellFormed ([] ++ .name cidPath v.object :: []) := by
    simp only [v, List.nil_append, TermsWellFormed, Term.WellFormed, CidValue.object,
      CompatibleId.object, List.map_cons, List.map_nil, DataObject.WellFormed, ElemsWellFormed]
    decide
  have hus : TermsWellFormed ([] ++ .name cidPath u.object :: []) := ⟨trivial, trivial⟩
  obtain ⟨props, hprops, hcids⟩ := exists_fromAml_cids hts
  obtain ⟨props', hprops', hcids'⟩ := exists_fromAml_cids hus
  refine ⟨⟨hts, props, hprops, hcids, rfl⟩, hus, props', hprops', hcids'.trans ?_, ?_⟩
  · decide
  · decide

end Mars.Aml
