import Mars.Aml.Agreement
import Mars.Aml.Device
import Mars.Aml.Stream
import Mathlib.Algebra.GroupWithZero.Nat

/-!
# AML processing is total

Every iteration of a loop over `parse_next` consumes a byte, and the contents of a term are shorter
than what the term consumed. The weight of a term counts the bytes that it still stands for; no
loop collects more weight than it consumed bytes, so the recursion into contents ends.
-/

namespace Mars.Aml

open Reader

/-- The bytes a term stands for: its opcode, and its contents if it hands them out. -/
def AmlTerm.weight (t : AmlTerm) : Nat := (t.contents?.elim 0 fun c => c.rest.length) + 1

lemma AmlTerm.weight_of_contents {t : AmlTerm} {c : AmlParser} (h : t.contents? = some c) :
    t.weight = c.rest.length + 1 := by
  rw [weight, h, Option.elim_some]

lemma parseNext_cases (p : AmlParser) :
    parseNext.run p = (.ok none, p) ∨
    (∃ e q, parseNext.run p = (.error e, q) ∧ q.rest.length < p.rest.length) ∨
    ∃ t q, parseNext.run p = (.ok (some t), q) ∧ t.weight + q.rest.length ≤ p.rest.length := by
  by_cases hnil : p.rest = []
  · exact .inl (parseNext_nil hnil)
  have hp := p.length_rest
  rcases hrun : parseNext.run p with ⟨e | t, q⟩
  · have hbefore := parseNext_before hnil hrun
    have hlt : p.cursor + 1 ≤ q.cursor := hbefore.le
    have hq : q.rest.length + q.cursor = p.bytes.length := hbefore.length_rest_add_cursor
    exact .inr (.inl ⟨e, q, rfl, by omega⟩)
  · have hbefore := parseNext_before hnil hrun
    have hlt : p.cursor + 1 ≤ q.cursor := hbefore.le
    have hq : q.rest.length + q.cursor = p.bytes.length := hbefore.length_rest_add_cursor
    obtain _ | t := t
    · exact absurd ((parseNext_eq_none_iff p).mp (by rw [hrun])) hnil
    · refine .inr (.inr ⟨t, q, rfl, ?_⟩)
      rcases hc : t.contents? with _ | c
      · simp only [AmlTerm.weight, hc, Option.elim_none]
        omega
      · have henc := encloses_parseNext hrun hc
        have hlen : p.cursor + 1 + c.bytes.length ≤ q.cursor := henc.length_le
        have hclen : c.rest.length = c.bytes.length := by
          rw [ByteCursor.length_rest, henc.fresh, Nat.sub_zero]
        rw [t.weight_of_contents hc]
        omega

/-! ### The walks -/

lemma afterNested_isSome {σ : Type} {nested : Option (Except String Unit × σ)}
    {next : σ → Option (Except String Unit × σ)} (h : nested.isSome)
    (hnext : ∀ out, (next out).isSome) : (afterNested nested next).isSome := by
  obtain ⟨⟨e | _, out⟩, rfl⟩ := Option.isSome_iff_exists.mp h
  · rfl
  · exact hnext out

lemma amlStream_isSome (fuel : Nat) : ∀ (depth : Nat) (p : AmlParser), p.rest.length < fuel →
    (amlStream fuel depth p).isSome := by
  induction fuel with
  | zero => exact fun _ _ hfuel => absurd hfuel (Nat.not_lt_zero _)
  | succ fuel ih =>
    intro depth p hfuel
    rcases parseNext_cases p with hrun | ⟨e, q, hrun, -⟩ | ⟨t, q, hrun, hle⟩
    · simp [amlStream, hrun]
    · simp [amlStream, hrun]
    · have hpos : 0 < t.weight := Nat.succ_pos _
      have hnext := ih depth q (by omega)
      have hin : ∀ c, t.contents? = some c → (amlStream fuel (depth + 1) c).isSome := by
        intro c hc
        have hweight := t.weight_of_contents hc
        exact ih _ _ (by omega)
      simp only [amlStream, hrun]
      cases t with
      | scope name c => exact afterNested_isSome (hin c rfl) fun _ => hnext
      | device name c => exact afterNested_isSome (hin c rfl) fun _ => hnext
      | _ => exact hnext

lemma formatAmlStream_isSome (fuel : Nat) : ∀ (depth : Nat) (p : AmlParser) (out : String),
    p.rest.length < fuel → (formatAmlStream fuel depth p out).isSome := by
  induction fuel with
  | zero => exact fun _ _ _ hfuel => absurd hfuel (Nat.not_lt_zero _)
  | succ fuel ih =>
    intro depth p out hfuel
    rcases parseNext_cases p with hrun | ⟨e, q, hrun, -⟩ | ⟨t, q, hrun, hle⟩
    · simp [formatAmlStream, hrun]
    · simp [formatAmlStream, hrun]
    · have hpos : 0 < t.weight := Nat.succ_pos _
      have hnext : ∀ out, (formatAmlStream fuel depth q out).isSome := fun out =>
        ih depth q out (by omega)
      have hin : ∀ c out, t.contents? = some c →
          (formatAmlStream fuel (depth + 1) c out).isSome := by
        intro c out hc
        have hweight := t.weight_of_contents hc
        exact ih _ _ _ (by omega)
      simp only [formatAmlStream, hrun]
      cases t with
      | scope name c => exact afterNested_isSome (hin c _ rfl) fun _ => hnext _
      | device name c => exact afterNested_isSome (hin c _ rfl) fun _ => hnext _
      | _ => exact hnext _

/-! ### The properties of a device -/

lemma splitChunk_eq_some {bytes chunk rest : List UInt8} {n : Nat}
    (h : splitChunk bytes n = some (chunk, rest)) :
    n ≤ bytes.length ∧ chunk = bytes.take n ∧ rest = bytes.drop n := by
  unfold splitChunk at h
  split at h
  · cases h
    exact ⟨‹_›, rfl, rfl⟩
  · cases h

/-- A descriptor has at least its tag, so the bytes left are fewer. -/
lemma crsNext_eq_some {bytes chunk rest : List UInt8} (h : crsNext bytes = some (chunk, rest)) :
    chunk ≠ [] ∧ rest.length < bytes.length ∧ chunk ++ rest = bytes := by
  have hsplit : ∃ n, 0 < n ∧ splitChunk bytes n = some (chunk, rest) := by
    unfold crsNext at h
    split at h
    · cases h
    · split at h
      · cases h
      · split at h
        · exact ⟨_, by omega, h⟩
        · split at h
          · exact ⟨_, by omega, h⟩
          · cases h
  obtain ⟨n, hn, hsplit⟩ := hsplit
  obtain ⟨hle, rfl, rfl⟩ := splitChunk_eq_some hsplit
  refine ⟨?_, ?_, List.take_append_drop n bytes⟩
  · intro hnil
    have := congrArg List.length hnil
    simp only [List.length_take, List.length_nil] at this
    omega
  · simp only [List.length_drop]
    omega

lemma intoRss_isSome {chunk : List UInt8} (h : chunk ≠ []) : (intoRss chunk).isSome := by
  cases chunk with
  | nil => exact absurd rfl h
  | cons tag rest => rfl

lemma crsResources_isSome (fuel : Nat) : ∀ bytes : List UInt8, bytes.length < fuel →
    (crsResources fuel bytes).isSome := by
  induction fuel with
  | zero => exact fun _ hfuel => absurd hfuel (Nat.not_lt_zero _)
  | succ fuel ih =>
    intro bytes hfuel
    rcases hnext : crsNext bytes with _ | ⟨chunk, rest⟩
    · simp [crsResources, hnext]
    · obtain ⟨hne, hlt, -⟩ := crsNext_eq_some hnext
      obtain ⟨rss, hrss⟩ := Option.isSome_iff_exists.mp (intoRss_isSome hne)
      obtain ⟨more, hmore⟩ := Option.isSome_iff_exists.mp (ih rest (by omega))
      simp [crsResources, hnext, hrss, hmore]

def weights (terms : List AmlTerm) : Nat := (terms.map AmlTerm.weight).sum

@[simp] lemma weights_nil : weights [] = 0 := rfl

@[simp] lemma weights_cons (t : AmlTerm) (terms : List AmlTerm) :
    weights (t :: terms) = t.weight + weights terms := by
  simp [weights]

@[simp] lemma weights_append (ts us : List AmlTerm) :
    weights (ts ++ us) = weights ts + weights us := by
  simp [weights]

namespace DeviceProperties

lemma crsOf_isSome (value : AmlValue) : (crsOf value).isSome := by
  cases value with
  | buffer buf => exact crsResources_isSome _ buf (Nat.lt_succ_self _)
  | _ => rfl

/-- A term is used up, or joins the terms that are left for the tree builder. -/
lemma addTerm_spec (acc : DeviceProperties) (t : AmlTerm) :
    ∃ acc', acc.addTerm t = some acc' ∧
      weights acc'.subTerms ≤ weights acc.subTerms + t.weight := by
  cases t with
  | name name value =>
    simp only [addTerm]
    split
    · exact ⟨_, rfl, Nat.le_add_right _ _⟩
    · split
      · exact ⟨_, rfl, Nat.le_add_right _ _⟩
      · split
        · exact ⟨_, rfl, Nat.le_add_right _ _⟩
        · split
          · obtain ⟨rss, hrss⟩ := Option.isSome_iff_exists.mp (crsOf_isSome value)
            rw [hrss]
            exact ⟨_, rfl, Nat.le_add_right _ _⟩
          · exact ⟨_, rfl, by simp⟩
  | _ => exact ⟨_, rfl, by simp⟩

lemma foldTerm_ok (acc : DeviceProperties) (t : AmlTerm) :
    ∃ acc', foldTerm (.ok acc) (.ok t) = some (.ok acc') ∧
      weights acc'.subTerms ≤ weights acc.subTerms + t.weight := by
  obtain ⟨acc', hacc', hle⟩ := acc.addTerm_spec t
  exact ⟨acc', by rw [foldTerm, hacc', Option.map_some], hle⟩

/-- After an error the fold only calls `parse_next` until the end. -/
lemma foldTerms_error (fuel : Nat) : ∀ (p : AmlParser) (e : String), p.rest.length < fuel →
    foldTerms fuel p (.error e) = some (.error e) := by
  induction fuel with
  | zero => exact fun _ _ hfuel => absurd hfuel (Nat.not_lt_zero _)
  | succ fuel ih =>
    intro p e hfuel
    rcases parseNext_cases p with hrun | ⟨e', q, hrun, hlt⟩ | ⟨t, q, hrun, hle⟩
    · simp only [foldTerms, hrun]
    · simp only [foldTerms, hrun, foldTerm, Option.bind_some]
      exact ih q e (by omega)
    · have hpos : 0 < t.weight := Nat.succ_pos _
      simp only [foldTerms, hrun, foldTerm, Option.bind_some]
      exact ih q e (by omega)

/-- The fold ends, and the terms it leaves for the tree builder weigh no more than the bytes
it consumed. -/
lemma foldTerms_spec (fuel : Nat) : ∀ (p : AmlParser) (acc : DeviceProperties),
    p.rest.length < fuel → ∃ r, foldTerms fuel p (.ok acc) = some r ∧
      ∀ props, r = .ok props → weights props.subTerms ≤ weights acc.subTerms + p.rest.length := by
  induction fuel with
  | zero => exact fun _ _ hfuel => absurd hfuel (Nat.not_lt_zero _)
  | succ fuel ih =>
    intro p acc hfuel
    rcases parseNext_cases p with hrun | ⟨e, q, hrun, hlt⟩ | ⟨t, q, hrun, hle⟩
    · refine ⟨.ok acc, by simp only [foldTerms, hrun], ?_⟩
      rintro props ⟨⟩
      exact Nat.le_add_right _ _
    · refine ⟨.error e, ?_, fun props h => by cases h⟩
      simp only [foldTerms, hrun, foldTerm, Option.bind_some]
      exact foldTerms_error fuel q e (by omega)
    · have hpos : 0 < t.weight := Nat.succ_pos _
      obtain ⟨acc', hacc', hweight⟩ := foldTerm_ok acc t
      obtain ⟨r, hr, hprops⟩ := ih q acc' (by omega)
      refine ⟨r, by simp only [foldTerms, hrun, hacc', Option.bind_some, hr], ?_⟩
      intro props h
      have := hprops props h
      omega

lemma fromAml_spec (p : AmlParser) {fuel : Nat} (hfuel : p.rest.length < fuel) :
    ∃ r, fromAml fuel p = some r ∧
      ∀ props, r = .ok props → weights props.subTerms ≤ p.rest.length := by
  obtain ⟨r, hr, hprops⟩ := foldTerms_spec fuel p {} hfuel
  refine ⟨r, hr, fun props h => ?_⟩
  have := hprops props h
  simpa using this

end DeviceProperties

/-! ### The tree builder -/

namespace Build

variable {α β : Type}

/-- The computation has an outcome on every builder. -/
def Halts (m : Build α) : Prop := ∀ tb, (m.run tb).isSome

lemma Halts.pure (a : α) : Halts (Pure.pure a : Build α) := fun _ => rfl

lemma Halts.bind {m : Build α} {f : α → Build β} (hm : Halts m)
    (hf : ∀ tb a tb', m.run tb = some (.ok a, tb') → Halts (f a)) : Halts (m >>= f) := by
  intro tb
  show ((Build.bind m f).run tb).isSome
  obtain ⟨⟨h | a, tb'⟩, hrun⟩ := Option.isSome_iff_exists.mp (hm tb)
  · simp [Build.bind, hrun]
  · simp only [Build.bind, hrun]
    exact hf tb a tb' hrun tb'

lemma halts_get : Halts get := fun _ => rfl

lemma halts_ofResult {r : Option (Except String α)} (h : r.isSome) : Halts (ofResult r) := by
  intro tb
  simpa [ofResult] using h

lemma of_run_ofResult {r : Option (Except String α)} {tb tb' : TreeBuilder} {a : α}
    (h : (ofResult r).run tb = some (.ok a, tb')) : r = some (.ok a) := by
  obtain _ | (e | b) := r
  · cases h
  · cases h
  · cases h
    rfl

lemma halts_addDevice (parent : Option Hardware.DeviceId)
    (cls : Hardware.DeviceClass × Hardware.DeviceInitPriority) (compatible : List String)
    (resources : List Hardware.Resource) : Halts (addDevice parent cls compatible resources) := by
  intro tb
  simp only [addDevice]
  split
  · rfl
  · rfl

lemma halts_insertScope (path : String) (id : Hardware.DeviceId) : Halts (insertScope path id) :=
  fun _ => rfl

end Build

namespace TreeBuilder

open Build

/-- The terms collected from a parser weigh no more than its bytes. -/
lemma collectTerms_spec (fuel : Nat) : ∀ p : AmlParser, p.rest.length < fuel →
    ∃ r, collectTerms fuel p = some r ∧ ∀ terms, r = .ok terms → weights terms ≤ p.rest.length := by
  induction fuel with
  | zero => exact fun _ hfuel => absurd hfuel (Nat.not_lt_zero _)
  | succ fuel ih =>
    intro p hfuel
    rcases parseNext_cases p with hrun | ⟨e, q, hrun, hlt⟩ | ⟨t, q, hrun, hle⟩
    · refine ⟨.ok [], by simp only [collectTerms, hrun], ?_⟩
      rintro terms ⟨⟩
      exact Nat.zero_le _
    · exact ⟨.error e, by simp only [collectTerms, hrun], fun terms h => by cases h⟩
    · have hpos : 0 < t.weight := Nat.succ_pos _
      obtain ⟨r, hr, hterms⟩ := ih q (by omega)
      refine ⟨r.map (t :: ·), by simp only [collectTerms, hrun, hr, Option.map_some], ?_⟩
      intro terms h
      obtain e | ts := r
      · cases h
      · cases h
        have := hterms ts rfl
        simp only [weights_cons]
        omega

/-- One term: the recursive call is made on terms that weigh less. -/
lemma halts_processTerm {recur : List AmlTerm → String → Option Hardware.DeviceId → Build Unit}
    {t : AmlTerm} (hrecur : ∀ ts path parent, weights ts < t.weight → Halts (recur ts path parent))
    (currentPath : String) (parentId : Option Hardware.DeviceId) :
    Halts (processTerm recur currentPath parentId t) := by
  cases t with
  | scope name c =>
    obtain ⟨r, hr, hterms⟩ := collectTerms_spec (c.rest.length + 1) c (Nat.lt_succ_self _)
    refine halts_get.bind fun _ tb _ _ => ?_
    refine (halts_ofResult (by rw [hr]; rfl)).bind fun _ subTerms _ hsub => ?_
    have hok := of_run_ofResult hsub
    rw [hr] at hok
    cases hok
    exact hrecur _ _ _ (Nat.lt_succ_of_le (hterms subTerms rfl))
  | device name c =>
    obtain ⟨r, hr, hprops⟩ := DeviceProperties.fromAml_spec c (Nat.lt_succ_self c.rest.length)
    refine (halts_ofResult (by rw [hr]; rfl)).bind fun _ props _ hfrom => ?_
    have hok := of_run_ofResult hfrom
    rw [hr] at hok
    cases hok
    refine (halts_addDevice _ _ _ _).bind fun _ devId _ _ => ?_
    refine (halts_insertScope _ devId).bind fun _ _ _ _ => ?_
    exact hrecur _ _ _ (Nat.lt_succ_of_le (hprops props rfl))
  | _ => exact .pure _

lemma halts_processTerms (fuel : Nat) : ∀ (terms : List AmlTerm) (currentPath : String)
    (parentId : Option Hardware.DeviceId), weights terms < fuel →
    Halts (processTerms fuel terms currentPath parentId) := by
  induction fuel with
  | zero => exact fun _ _ _ hfuel => absurd hfuel (Nat.not_lt_zero _)
  | succ fuel ih =>
    intro terms currentPath parentId hfuel
    cases terms with
    | nil => exact .pure _
    | cons t terms =>
      have hpos : 0 < t.weight := Nat.succ_pos _
      rw [weights_cons] at hfuel
      refine Halts.bind (halts_processTerm ?_ currentPath parentId) fun _ _ _ _ => ?_
      · exact fun ts path parent hts => ih ts path parent (by omega)
      · exact ih terms currentPath parentId (by omega)

end TreeBuilder

/-! ### Totality -/

/-- A slice of bytes in the sense of the source language: it has at most `isize::MAX` bytes. -/
structure Slice where
  bytes : List UInt8
  length_lt : bytes.length < 2 ^ 63

/-- A parser on the slice, wherever it stands. -/
def Slice.parserAt (s : Slice) (cursor : Nat) : AmlParser := { bytes := s.bytes, cursor := cursor }

lemma parseNext_moves {p : AmlParser} (h : p.rest ≠ []) :
    (parseNext.run p).2.bytes = p.bytes ∧ p.cursor < (parseNext.run p).2.cursor ∧
      (parseNext.run p).2.cursor ≤ p.bytes.length :=
  have hbefore := parseNext_before h rfl
  ⟨hbefore.bytes_eq, hbefore.le, hbefore.inside⟩

lemma parseNext_contents {p c : AmlParser} {t : AmlTerm}
    (h : (parseNext.run p).1 = .ok (some t)) (hc : t.contents? = some c) :
    c.cursor = 0 ∧ c.bytes <:+: p.bytes ∧ c.bytes.length < p.rest.length := by
  have hrun : parseNext.run p = (.ok (some t), (parseNext.run p).2) := Prod.ext h rfl
  have henc := encloses_parseNext hrun hc
  refine ⟨henc.fresh, henc.infix_bytes, ?_⟩
  rcases parseNext_cases p with hnone | ⟨e, q, herr, -⟩ | ⟨t', q, hok, hle⟩
  · rw [hnone] at h
    cases h
  · rw [herr] at h
    cases h
  · rw [hok] at h
    cases h
    have hclen : c.rest.length = c.bytes.length := by
      rw [ByteCursor.length_rest, henc.fresh, Nat.sub_zero]
    rw [t.weight_of_contents hc] at hle
    omega

/-- AML processing is total. From every position of every slice `parse_next` returns without an
operation out of range; it reports the end exactly when no byte is left, and otherwise it moves
forward inside the slice, whether it succeeds or fails. So the walks over a stream, the properties
of a device and the tree builder return on every input. -/
theorem Slice.processing_total (s : Slice) (cursor : Nat) :
    (∀ fuel, (s.parserAt cursor).rest.length < fuel →
      (Checked.parseNext fuel).run (s.parserAt cursor) =
        some (parseNext.run (s.parserAt cursor))) ∧
    ((parseNext.run (s.parserAt cursor)).1 = .ok none ↔ (s.parserAt cursor).rest = []) ∧
    ((s.parserAt cursor).rest ≠ [] →
      (parseNext.run (s.parserAt cursor)).2.bytes = s.bytes ∧
      cursor < (parseNext.run (s.parserAt cursor)).2.cursor ∧
      (parseNext.run (s.parserAt cursor)).2.cursor ≤ s.bytes.length) ∧
    (∀ t c, (parseNext.run (s.parserAt cursor)).1 = .ok (some t) → t.contents? = some c →
      c.cursor = 0 ∧ c.bytes <:+: s.bytes ∧ c.bytes.length < (s.parserAt cursor).rest.length) ∧
    (∀ fuel depth out, (s.parserAt cursor).rest.length < fuel →
      (amlStream fuel depth (s.parserAt cursor)).isSome ∧
      (formatAmlStream fuel depth (s.parserAt cursor) out).isSome ∧
      (DeviceProperties.fromAml fuel (s.parserAt cursor)).isSome) ∧
    (∀ fuel terms currentPath parentId tb, weights terms < fuel →
      ((TreeBuilder.processTerms fuel terms currentPath parentId).run tb).isSome) := by
  refine ⟨?_, parseNext_eq_none_iff _, parseNext_moves, fun t c => parseNext_contents, ?_, ?_⟩
  · intro fuel hfuel
    exact Checked.agrees_parseNext s.length_lt hfuel
  · intro fuel depth out hfuel
    obtain ⟨r, hr, -⟩ := DeviceProperties.fromAml_spec _ hfuel
    exact ⟨amlStream_isSome fuel depth _ hfuel, formatAmlStream_isSome fuel depth _ out hfuel,
      by rw [hr]; rfl⟩
  · intro fuel terms currentPath parentId tb hfuel
    exact TreeBuilder.halts_processTerms fuel terms currentPath parentId hfuel tb

end Mars.Aml
