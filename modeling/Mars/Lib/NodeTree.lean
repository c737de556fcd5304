import Mathlib.Algebra.Group.Nat.Defs
import Mathlib.Tactic.Common
import Mathlib.Data.List.Infix
import Mathlib.Data.List.Nodup
import Mathlib.Logic.Function.Basic

/-!
# Trees of nodes in memory

A memory holds nodes at addresses, and every node has one entry for each index. `follow` reads a
path of indices from a node on. In a tree of bounded depth every path leads to a node that is alive,
every node is the end of one path only, and no other node is alive. The lemmas say what writing an
entry, hanging a new node into a tree and taking one out do to the paths.
-/

namespace Mars.Lib.NodeTree

open Function

variable {A I E : Type*}

abbrev Nodes (A I E : Type*) := A → Option (I → E)

variable (child : E → Option A)

def follow (h : Nodes A I E) : A → List I → Option A
  | a, []     => some a
  | a, i :: p => (h a).bind fun n => (child (n i)).bind fun c => follow h c p

def nodeAt (h : Nodes A I E) (r : A) (p : List I) : Option (I → E) := (follow child h r p).bind h

/-- The nodes below `r`, down to the depth `d`, form a tree, and nothing else is alive. -/
structure IsTree (h : Nodes A I E) (r : A) (d : Nat) : Prop where
  alive : ∀ p a, p.length ≤ d → follow child h r p = some a → ∃ n, h a = some n
  inj : ∀ p q a, p.length ≤ d → q.length ≤ d → follow child h r p = some a →
    follow child h r q = some a → p = q
  reached : ∀ a n, h a = some n → ∃ p, p.length ≤ d ∧ follow child h r p = some a

variable {child} {h h' : Nodes A I E} {r a b c : A} {d k : Nat} {i j : I} {is p q : List I}
  {e : E} {n m : I → E}

@[simp] lemma follow_nil : follow child h a [] = some a := rfl

lemma follow_append (a : A) (p q : List I) :
    follow child h a (p ++ q) = (follow child h a p).bind fun b => follow child h b q := by
  induction p generalizing a with
  | nil => rfl
  | cons i p ih =>
    simp only [List.cons_append, follow, Option.bind_assoc]
    refine Option.bind_congr fun n _ => Option.bind_congr fun c _ => ih c

lemma follow_snoc (a : A) (p : List I) (i : I) :
    follow child h a (p ++ [i]) =
      (follow child h a p).bind fun b => (h b).bind fun n => child (n i) := by
  rw [follow_append]
  refine Option.bind_congr fun b _ => ?_
  refine Option.bind_congr fun n _ => ?_
  cases child (n i) <;> rfl

lemma nodeAt_of_follow (hp : follow child h r p = some a) : nodeAt child h r p = h a := by
  rw [nodeAt, hp, Option.bind_some]

lemma nodeAt_of_follow_none (hp : follow child h r p = none) : nodeAt child h r p = none := by
  rw [nodeAt, hp]
  rfl

lemma follow_snoc_of_node (hp : follow child h r p = some a) (hn : h a = some n) :
    follow child h r (p ++ [i]) = child (n i) := by
  rw [follow_snoc, hp, Option.bind_some, hn, Option.bind_some]

lemma follow_of_prefix (hpq : p <+: q) (hq : follow child h r q = some a) :
    ∃ b, follow child h r p = some b := by
  obtain ⟨q', rfl⟩ := hpq
  rw [follow_append] at hq
  obtain ⟨b, hb, -⟩ := Option.bind_eq_some_iff.1 hq
  exact ⟨b, hb⟩

lemma follow_of_le (hle : ∀ a n, h a = some n → h' a = some n) (hp : follow child h r p = some a) :
    follow child h' r p = some a := by
  induction p generalizing r with
  | nil => exact hp
  | cons i p ih =>
    obtain ⟨n, hn, hp⟩ := Option.bind_eq_some_iff.1 hp
    obtain ⟨c, hc, hp⟩ := Option.bind_eq_some_iff.1 hp
    rw [follow, hle r n hn, Option.bind_some, hc, Option.bind_some]
    exact ih hp

/-- An entry that leads back to its node can be followed again and again. -/
lemma follow_replicate (hn : h a = some n) (hi : child (n i) = some a) (k : Nat) :
    follow child h a (List.replicate k i) = some a := by
  induction k with
  | zero => rfl
  | succ k ih => rw [List.replicate_succ, follow, hn, Option.bind_some, hi, Option.bind_some, ih]

/-! ### Paths after an edit -/

/-- Two memories that agree on the nodes of all shorter paths have the same paths. -/
lemma follow_congr (hag : ∀ q' j b, (q' ++ [j]) <+: q → follow child h r q' = some b →
      (h' b).bind (fun n => child (n j)) = (h b).bind fun n => child (n j)) :
    follow child h' r q = follow child h r q := by
  induction q using List.reverseRecOn with
  | nil => rfl
  | append_singleton q j ih =>
    have hq : follow child h' r q = follow child h r q := by
      refine ih fun q' k b hk => hag q' k b ?_
      exact hk.trans (List.prefix_append q [j])
    rw [follow_snoc, follow_snoc, hq]
    refine Option.bind_congr fun b hb => ?_
    exact hag q j b List.prefix_rfl hb

/-- A memory with the same paths and the same live nodes is a tree as well. -/
lemma IsTree.of_follow_eq (ht : IsTree child h r d)
    (hf : ∀ q, q.length ≤ d → follow child h' r q = follow child h r q)
    (hs : ∀ a, (h' a).isSome = (h a).isSome) : IsTree child h' r d where
  alive := by
    intro p a hp ha
    rw [hf p hp] at ha
    obtain ⟨n, hn⟩ := ht.alive p a hp ha
    rw [← Option.isSome_iff_exists, hs, hn]
    rfl
  inj := by
    intro p q a hp hq hpa hqa
    rw [hf p hp] at hpa
    rw [hf q hq] at hqa
    exact ht.inj p q a hp hq hpa hqa
  reached := by
    intro a n hn
    have hsome : (h a).isSome := by rw [← hs, hn]; rfl
    obtain ⟨m, hm⟩ := Option.isSome_iff_exists.1 hsome
    obtain ⟨p, hp, hpa⟩ := ht.reached a m hm
    exact ⟨p, hp, (hf p hp).trans hpa⟩

lemma length_snoc_le (hp : p.length < d) (i : I) : (p ++ [i]).length ≤ d := by
  rw [List.length_append, List.length_singleton]
  exact hp

lemma IsTree.follow_ne_of_dead (ht : IsTree child h r d) (hb : h b = none) (hq : q.length ≤ d) :
    follow child h r q ≠ some b := by
  intro hqb
  obtain ⟨n, hn⟩ := ht.alive q b hq hqb
  rw [hb] at hn
  cases hn

lemma IsTree.parent_ne (ht : IsTree child h r d) (hp : follow child h r p = some a)
    (hpd : p.length < d) (hpi : follow child h r (p ++ [i]) = some b) : a ≠ b := by
  rintro rfl
  have heq := ht.inj _ _ _ hpd.le (length_snoc_le hpd i) hp hpi
  simp at heq

/-! ### The nodes of a tree -/

variable (child) in
/-- The node `a` is at the end of a path of at most `d` steps. -/
def Reached (h : Nodes A I E) (r : A) (d : Nat) (a : A) : Prop :=
  ∃ p, p.length ≤ d ∧ follow child h r p = some a

/-- The paths from a node on only depend on the nodes that are reached from there. -/
lemma follow_eq_of_reached (hag : ∀ a, Reached child h r d a → h' a = h a) (hq : q.length ≤ d + 1) :
    follow child h' r q = follow child h r q := by
  refine follow_congr fun q' j b hpre hb => ?_
  have hlen := hpre.length_le
  rw [List.length_append, List.length_singleton] at hlen
  rw [hag b ⟨q', by omega, hb⟩]

lemma reached_congr (hag : ∀ a, Reached child h r d a → h' a = h a) :
    Reached child h' r d a ↔ Reached child h r d a := by
  refine exists_congr fun p => and_congr_right fun hp => ?_
  rw [follow_eq_of_reached hag (Nat.le_succ_of_le hp)]

variable (child) in
/-- The nodes down to the depth `d` below a path, each after those below it. The children of a
node are visited in the order of `is`. -/
def postorder (h : Nodes A I E) (r : A) (is : List I) : Nat → List I → List A
  | 0, p     => (follow child h r p).toList
  | d + 1, p => (is.flatMap fun i => postorder h r is d (p ++ [i])) ++ (follow child h r p).toList

lemma mem_postorder (his : ∀ i, i ∈ is) :
    a ∈ postorder child h r is d p ↔ ∃ q, q.length ≤ d ∧ follow child h r (p ++ q) = some a := by
  induction d generalizing p with
  | zero =>
    rw [postorder, Option.mem_toList]
    constructor
    · intro hp
      exact ⟨[], Nat.le_refl 0, by rwa [List.append_nil]⟩
    · rintro ⟨q, hq, hp⟩
      rw [List.length_eq_zero_iff.1 (Nat.le_zero.1 hq), List.append_nil] at hp
      exact hp
  | succ d ih =>
    simp only [postorder, List.mem_append, List.mem_flatMap, Option.mem_toList, ih]
    constructor
    · rintro (⟨i, -, q, hq, hp⟩ | hp)
      · exact ⟨i :: q, Nat.succ_le_succ hq, by simpa using hp⟩
      · exact ⟨[], Nat.zero_le _, by simpa using hp⟩
    · rintro ⟨q, hq, hp⟩
      cases q with
      | nil => exact .inr (by simpa using hp)
      | cons i q => exact .inl ⟨i, his i, q, Nat.le_of_succ_le_succ hq, by simpa using hp⟩

lemma mem_postorder_nil (his : ∀ i, i ∈ is) :
    a ∈ postorder child h r is d [] ↔ Reached child h r d a :=
  mem_postorder his

namespace IsTree

/-- Nodes below different children of a node are different. -/
lemma postorder_disjoint (his : ∀ i, i ∈ is) (ht : IsTree child h r d) (hpd : p.length + k < d)
    (hij : i ≠ j) :
    List.Disjoint (postorder child h r is k (p ++ [i])) (postorder child h r is k (p ++ [j])) := by
  intro a hi hj
  obtain ⟨q, hq, hqa⟩ := (mem_postorder his).1 hi
  obtain ⟨q', hq', hqa'⟩ := (mem_postorder his).1 hj
  have heq := ht.inj _ _ a (by simp; omega) (by simp; omega) hqa hqa'
  rw [List.append_assoc, List.append_assoc, List.append_cancel_left_eq] at heq
  exact hij (List.cons.inj heq).1

lemma notMem_postorder (his : ∀ i, i ∈ is) (ht : IsTree child h r d) (hpd : p.length + k < d)
    (hp : follow child h r p = some a) : a ∉ postorder child h r is k (p ++ [i]) := by
  intro hmem
  obtain ⟨q, hq, hqa⟩ := (mem_postorder his).1 hmem
  have heq := ht.inj _ _ a (by omega) (by simp; omega) hp hqa
  simp at heq

lemma nodup_postorder (his : ∀ i, i ∈ is) (hnodup : is.Nodup) (ht : IsTree child h r d)
    (hpd : p.length + k ≤ d) : (postorder child h r is k p).Nodup := by
  have hnode : ∀ p, (follow child h r p).toList.Nodup := by
    intro p
    cases follow child h r p <;> simp
  induction k generalizing p with
  | zero => exact hnode p
  | succ k ih =>
    refine List.Nodup.append ?_ (hnode p) ?_
    · refine List.nodup_flatMap.2 ⟨fun i _ => ih (by simp; omega), ?_⟩
      exact hnodup.imp fun hij => ht.postorder_disjoint his (by omega) hij
    · intro a hmem ha
      obtain ⟨i, -, hmem⟩ := List.mem_flatMap.1 hmem
      exact ht.notMem_postorder his (by omega) (Option.mem_toList.1 ha) hmem

end IsTree

section Edits

variable [DecidableEq A] [DecidableEq I]

def setEntry (h : Nodes A I E) (a : A) (i : I) (e : E) : Nodes A I E :=
  update h a ((h a).map fun n => update n i e)

lemma setEntry_self (hn : h a = some n) : setEntry h a i e a = some (update n i e) := by
  rw [setEntry, update_self, hn, Option.map_some]

lemma setEntry_of_ne (hb : b ≠ a) : setEntry h a i e b = h b :=
  update_of_ne hb ..

lemma setEntry_isSome : (setEntry h a i e b).isSome = (h b).isSome := by
  by_cases hb : b = a
  · subst hb
    rw [setEntry, update_self, Option.isSome_map]
  · rw [setEntry_of_ne hb]

/-- An entry can be exchanged for one that leads to the same node. -/
lemma follow_setEntry_of_child_eq (hn : h a = some n) (he : child e = child (n i)) :
    follow child (setEntry h a i e) r q = follow child h r q := by
  refine follow_congr fun q' j b _ _ => ?_
  by_cases hba : b = a
  · subst hba
    rw [setEntry_self hn, hn, Option.bind_some, Option.bind_some]
    by_cases hji : j = i
    · rw [hji, update_self, he]
    · rw [update_of_ne hji]
  · rw [setEntry_of_ne hba]

namespace IsTree

section

variable (ht : IsTree child h r d) (hp : follow child h r p = some a)

include ht hp

/-- Writing the entry `i` of the node at `p` only matters to the paths through that entry. -/
lemma follow_setEntry
    (hpd : p.length ≤ d) (hq : q.length ≤ d + 1) (hnot : ¬ (p ++ [i]) <+: q) :
    follow child (setEntry h a i e) r q = follow child h r q := by
  refine follow_congr ?_
  intro q' j b hpre hb
  have hlen : q'.length ≤ d := by
    have := hpre.length_le
    rw [List.length_append, List.length_singleton] at this
    omega
  by_cases hba : b = a
  · subst hba
    have hq' : q' = p := ht.inj _ _ _ hlen hpd hb hp
    have hij : j ≠ i := by
      rintro rfl
      exact hnot (hq' ▸ hpre)
    obtain ⟨n, hn⟩ := ht.alive _ _ hpd hp
    rw [setEntry_self hn, hn, Option.bind_some, Option.bind_some, update_of_ne hij]
  · rw [setEntry_of_ne hba]

/-- Once the entry above a node leads nowhere, the node cannot be reached. -/
lemma follow_setEntry_ne
    (hpd : p.length < d) (hpi : follow child h r (p ++ [i]) = some b) (he : child e = none)
    (hq : q.length ≤ d) : follow child (setEntry h a i e) r q ≠ some b := by
  intro hqb
  by_cases hpre : p ++ [i] <+: q
  · obtain ⟨c, hc⟩ := follow_of_prefix hpre hqb
    have hp' : follow child (setEntry h a i e) r p = some a := by
      rw [ht.follow_setEntry hp hpd.le (Nat.le_succ_of_le hpd.le), hp]
      intro hpre'
      exact absurd hpre'.length_le (by simp)
    obtain ⟨n, hn⟩ := ht.alive p a hpd.le hp
    rw [follow_snoc_of_node hp' (setEntry_self hn), update_self, he] at hc
    cases hc
  · rw [ht.follow_setEntry hp hpd.le (Nat.le_succ_of_le hq) hpre] at hqb
    obtain rfl := ht.inj _ _ _ (length_snoc_le hpd i) hq hpi hqb
    exact hpre List.prefix_rfl

lemma follow_setEntry_leaf
    (hpd : p.length = d) (hq : q.length ≤ d) :
    follow child (setEntry h a i e) r q = follow child h r q := by
  refine ht.follow_setEntry hp hpd.le (Nat.le_succ_of_le hq) ?_
  intro hpre
  have := hpre.length_le
  rw [List.length_append, List.length_singleton] at this
  omega

lemma setEntry_leaf (hpd : p.length = d) : IsTree child (setEntry h a i e) r d :=
  ht.of_follow_eq (fun _ hq => ht.follow_setEntry_leaf hp hpd hq) fun _ => setEntry_isSome

lemma nodeAt_setEntry_leaf
    (hpd : p.length = d) (hn : h a = some n) (hq : q.length ≤ d) :
    nodeAt child (setEntry h a i e) r q =
      if q = p then some (update n i e) else nodeAt child h r q := by
  rw [nodeAt, ht.follow_setEntry_leaf hp hpd hq]
  by_cases hqp : q = p
  · rw [if_pos hqp, hqp, hp, Option.bind_some, setEntry_self hn]
  · rw [if_neg hqp, nodeAt]
    refine Option.bind_congr fun b hb => ?_
    have hba : b ≠ a := by
      rintro rfl
      exact hqp (ht.inj _ _ _ hq hpd.le hb hp)
    exact setEntry_of_ne hba

end

end IsTree

/-- Exchange the node at `b` and rewrite the entry `i` of the node at `a`. -/
def graft (h : Nodes A I E) (a : A) (i : I) (e : E) (b : A) (y : Option (I → E)) : Nodes A I E :=
  setEntry (update h b y) a i e

lemma graft_self (hn : h a = some n) (hab : a ≠ b) (y : Option (I → E)) :
    graft h a i e b y a = some (update n i e) :=
  setEntry_self (by rw [update_of_ne hab, hn])

lemma graft_node (hab : a ≠ b) (y : Option (I → E)) : graft h a i e b y b = y := by
  rw [graft, setEntry_of_ne hab.symm, update_self]

lemma graft_of_ne (hca : c ≠ a) (hcb : c ≠ b) (y : Option (I → E)) : graft h a i e b y c = h c := by
  rw [graft, setEntry_of_ne hca, update_of_ne hcb]

lemma graft_isSome (hcb : c ≠ b) (y : Option (I → E)) :
    (graft h a i e b y c).isSome = (h c).isSome := by
  rw [graft, setEntry_isSome, update_of_ne hcb]

variable (child) in
/-- The entry `i` of the node at the end of `p` leads nowhere or to the node `b`, and will lead
nowhere or to the node `b` with the contents `y`. Nothing hangs below `b` before or after. -/
structure IsGraft (h : Nodes A I E) (r : A) (d : Nat) (p : List I) (a : A) (i : I) (e : E) (b : A)
    (y : Option (I → E)) : Prop where
  parent : follow child h r p = some a
  short : p.length < d
  entry : follow child h r (p ++ [i]) = (h b).map fun _ => b
  old : ∀ m, h b = some m → ∀ j, child (m j) = none
  child_eq : child e = y.map fun _ => b
  new : ∀ m, y = some m → ∀ j, child (m j) = none

omit [DecidableEq A] [DecidableEq I] in
/-- A new node without children for an empty entry. -/
lemma isGraft_link (hp : follow child h r p = some a) (hpd : p.length < d) (hn : h a = some n)
    (hempty : child (n i) = none) (hb : h b = none) (he : child e = some b)
    (hm : ∀ j, child (m j) = none) : IsGraft child h r d p a i e b (some m) where
  parent := hp
  short := hpd
  entry := by rw [follow_snoc_of_node hp hn, hempty, hb, Option.map_none]
  old := by
    intro m hm
    rw [hb] at hm
    cases hm
  child_eq := he
  new := by
    rintro _ ⟨⟩
    exact hm

omit [DecidableEq A] [DecidableEq I] in
/-- A node without children that is taken out. -/
lemma isGraft_unlink (hp : follow child h r p = some a) (hpd : p.length < d)
    (hpi : follow child h r (p ++ [i]) = some b) (hb : h b = some m) (hm : ∀ j, child (m j) = none)
    (he : child e = none) :
    IsGraft child h r d p a i e b none where
  parent := hp
  short := hpd
  entry := by rw [hpi, hb, Option.map_some]
  old := by
    intro m' hm'
    obtain rfl := Option.some.inj (hb.symm.trans hm')
    exact hm
  child_eq := he
  new := nofun

namespace IsTree

variable {y : Option (I → E)} (ht : IsTree child h r d) (hy : IsGraft child h r d p a i e b y)

include hy in
omit [DecidableEq A] [DecidableEq I] in
lemma nodeAt_of_isGraft : nodeAt child h r (p ++ [i]) = h b := by
  rw [nodeAt, hy.entry]
  cases hb : h b with
  | none => rfl
  | some m => exact hb

include ht hy

omit [DecidableEq A] [DecidableEq I] in
/-- Only the entry can lead to the node. -/
lemma eq_of_isGraft (hq : q.length ≤ d) (hqb : follow child h r q = some b) : q = p ++ [i] := by
  obtain ⟨m, hm⟩ := ht.alive q b hq hqb
  have hentry := hy.entry
  rw [hm, Option.map_some] at hentry
  exact ht.inj _ _ _ hq (length_snoc_le hy.short i) hqb hentry

omit [DecidableEq A] [DecidableEq I] in
lemma ne_of_isGraft : a ≠ b := by
  rintro rfl
  have heq := ht.eq_of_isGraft hy hy.short.le hy.parent
  simp at heq

/-- The graft only changes the path that ends in the entry. -/
lemma follow_graft (hq : q.length ≤ d) : follow child (graft h a i e b y) r q =
    if q = p ++ [i] then y.map fun _ => b else follow child h r q := by
  have hab := ht.ne_of_isGraft hy
  obtain ⟨n, hn⟩ := ht.alive p a hy.short.le hy.parent
  induction q using List.reverseRecOn with
  | nil => simp
  | append_singleton q j ih =>
    have hqd : q.length ≤ d := by
      rw [List.length_append] at hq
      omega
    rw [follow_snoc, ih hqd]
    by_cases hqp : q = p ++ [i]
    · -- below the entry
      subst hqp
      have hne : p ++ [i] ++ [j] ≠ p ++ [i] := by simp
      rw [if_pos rfl, if_neg hne, follow_snoc, hy.entry]
      cases hb : h b with
      | none =>
        cases y with
        | none => rfl
        | some m => simp [graft_node hab, hy.new m rfl]
      | some m' =>
        cases y with
        | none => simp [hb, hy.old m' hb]
        | some m => simp [graft_node hab, hy.new m rfl, hb, hy.old m' hb]
    · rw [if_neg hqp]
      cases hx : follow child h r q with
      | none =>
        have hne : q ++ [j] ≠ p ++ [i] := by
          intro heq
          rw [(List.append_inj' heq rfl).1, hy.parent] at hx
          cases hx
        rw [if_neg hne, follow_snoc, hx]
        rfl
      | some x =>
        have hxb : x ≠ b := by
          rintro rfl
          exact hqp (ht.eq_of_isGraft hy hqd hx)
        rw [Option.bind_some]
        by_cases hxa : x = a
        · subst hxa
          obtain rfl : q = p := ht.inj _ _ _ hqd hy.short.le hx hy.parent
          rw [graft_self hn hab, Option.bind_some]
          by_cases hji : j = i
          · rw [hji, if_pos rfl, update_self, hy.child_eq]
          · have hne : q ++ [j] ≠ q ++ [i] := by simpa using hji
            rw [if_neg hne, update_of_ne hji, follow_snoc_of_node hx hn]
        · have hne : q ++ [j] ≠ p ++ [i] := by
            intro heq
            rw [(List.append_inj' heq rfl).1, hy.parent] at hx
            exact hxa (Option.some.inj hx.symm)
          rw [if_neg hne, graft_of_ne hxa hxb, follow_snoc, hx, Option.bind_some]

lemma nodeAt_graft (hn : h a = some n) (hq : q.length ≤ d) :
    nodeAt child (graft h a i e b y) r q =
      if q = p ++ [i] then y else if q = p then some (update n i e)
        else nodeAt child h r q := by
  have hab := ht.ne_of_isGraft hy
  rw [nodeAt, ht.follow_graft hy hq]
  by_cases hqi : q = p ++ [i]
  · rw [if_pos hqi, if_pos hqi]
    cases y with
    | none => rfl
    | some m => exact graft_node hab _
  · rw [if_neg hqi, if_neg hqi]
    by_cases hqp : q = p
    · rw [if_pos hqp, hqp, hy.parent, Option.bind_some, graft_self hn hab]
    · rw [if_neg hqp, nodeAt]
      refine Option.bind_congr fun c hc => ?_
      refine graft_of_ne ?_ ?_ _
      · rintro rfl
        exact hqp (ht.inj _ _ _ hq hy.short.le hc hy.parent)
      · rintro rfl
        exact hqi (ht.eq_of_isGraft hy hq hc)

lemma graft : IsTree child (graft h a i e b y) r d := by
  have hfollow := fun q (hq : List.length q ≤ d) => ht.follow_graft hy hq
  have hab := ht.ne_of_isGraft hy
  -- below a path that is not the entry hangs what was there before
  have hne : ∀ {q c}, q.length ≤ d → q ≠ p ++ [i] → follow child h r q = some c → c ≠ b := by
    rintro q c hq hqi hc rfl
    exact hqi (ht.eq_of_isGraft hy hq hc)
  refine ⟨?_, ?_, ?_⟩
  · intro q c hq hc
    rw [hfollow q hq] at hc
    split_ifs at hc with hqi
    · obtain ⟨m, rfl, rfl⟩ := Option.map_eq_some_iff.1 hc
      exact ⟨m, graft_node hab _⟩
    · rw [← Option.isSome_iff_exists, graft_isSome (hne hq hqi hc), Option.isSome_iff_exists]
      exact ht.alive q c hq hc
  · intro q₁ q₂ c hq₁ hq₂ h₁ h₂
    rw [hfollow q₁ hq₁] at h₁
    rw [hfollow q₂ hq₂] at h₂
    split_ifs at h₁ h₂ with he₁ he₂ he₂
    · rw [he₁, he₂]
    · obtain ⟨m, -, rfl⟩ := Option.map_eq_some_iff.1 h₁
      exact absurd rfl (hne hq₂ he₂ h₂)
    · obtain ⟨m, -, rfl⟩ := Option.map_eq_some_iff.1 h₂
      exact absurd rfl (hne hq₁ he₁ h₁)
    · exact ht.inj q₁ q₂ c hq₁ hq₂ h₁ h₂
  · intro c n' hc
    have hpi := length_snoc_le hy.short i
    by_cases hcb : c = b
    · refine ⟨p ++ [i], hpi, ?_⟩
      rw [hcb, graft_node hab] at hc
      rw [hfollow _ hpi, if_pos rfl, hcb, hc, Option.map_some]
    · have hold : (h c).isSome := by
        rw [← graft_isSome hcb, hc]
        rfl
      obtain ⟨n'', hn''⟩ := Option.isSome_iff_exists.1 hold
      obtain ⟨q, hq, hqc⟩ := ht.reached c n'' hn''
      refine ⟨q, hq, ?_⟩
      rw [hfollow q hq, if_neg, hqc]
      rintro rfl
      rw [hy.entry] at hqc
      obtain ⟨-, -, rfl⟩ := Option.map_eq_some_iff.1 hqc
      exact hcb rfl

end IsTree

/-! ### Trees from trees -/

omit [DecidableEq I] in
/-- One node without children is a tree, and so is any node if its children do not count. -/
lemma IsTree.single (hm : d ≠ 0 → ∀ i, child (m i) = none) :
    IsTree child (update (fun _ => none) r (some m)) r d := by
  have hroot : update (fun _ => none) r (some m) r = some m := update_self ..
  have hnil : ∀ p a, p.length ≤ d →
      follow child (update (fun _ => none) r (some m)) r p = some a → p = [] ∧ a = r := by
    intro p a hpd hp
    cases p with
    | nil => exact ⟨rfl, (Option.some.inj hp).symm⟩
    | cons i p =>
      have hd : d ≠ 0 := Nat.ne_of_gt (lt_of_lt_of_le (by simp) hpd)
      rw [follow, hroot, Option.bind_some, hm hd] at hp
      cases hp
  refine ⟨?_, ?_, ?_⟩
  · intro p a hpd hp
    rw [(hnil p a hpd hp).2]
    exact ⟨m, hroot⟩
  · intro p q a hpd hqd hp hq
    rw [(hnil p a hpd hp).1, (hnil q a hqd hq).1]
  · intro a n hn
    by_cases ha : a = r
    · exact ⟨[], Nat.zero_le d, by rw [ha]; rfl⟩
    · rw [update_of_ne ha] at hn
      cases hn

/-- Hang the nodes `g` into the entry `i` of the node at `a`. -/
def attach (h : Nodes A I E) (a : A) (i : I) (e : E) (g : Nodes A I E) : Nodes A I E :=
  setEntry (fun b => (h b).or (g b)) a i e

section Attach

variable {g : Nodes A I E} (ht : IsTree child h r (d + 1)) (hg : IsTree child g c d)
  (hdisj : ∀ b m, g b = some m → h b = none) (hn : h r = some n) (hi : child (n i) = none)
  (he : child e = some c)

include hn in
lemma attach_root : attach h r i e g r = some (update n i e) :=
  setEntry_self (by rw [hn]; rfl)

lemma attach_of_old (hb : b ≠ r) (hm : h b = some m) : attach h r i e g b = some m := by
  rw [attach, setEntry_of_ne hb, hm]
  rfl

include hdisj hn in
lemma attach_of_new (hm : g b = some m) : attach h r i e g b = some m := by
  have hold := hdisj b m hm
  have hb : b ≠ r := by
    rintro rfl
    rw [hold] at hn
    cases hn
  rw [attach, setEntry_of_ne hb, hold, hm]
  rfl

namespace IsTree

include ht hg hdisj hn he

/-- Below the entry are the paths of the new tree. -/
lemma follow_attach (j : I) (hq : q.length ≤ d) : follow child (attach h r i e g) r (j :: q) =
    if j = i then follow child g c q else follow child h r (j :: q) := by
  by_cases hji : j = i
  · subst hji
    rw [if_pos rfl, follow, attach_root hn, Option.bind_some, update_self, he, Option.bind_some]
    refine follow_congr fun q' k b hpre hb => ?_
    have hlen : q'.length ≤ d := (Nat.le_succ _).trans <| by
      simpa using hpre.length_le.trans hq
    obtain ⟨m, hm⟩ := hg.alive q' b hlen hb
    rw [attach_of_new hdisj hn hm, hm]
  · rw [if_neg hji]
    refine follow_congr fun q' k b hpre hb => ?_
    have hlen : q'.length ≤ d + 1 := (Nat.le_succ _).trans <| by
      simpa using hpre.length_le.trans (Nat.succ_le_succ hq)
    obtain ⟨m, hm⟩ := ht.alive q' b hlen hb
    by_cases hbr : b = r
    · -- only the first step is at the root, and it is through another entry
      subst hbr
      obtain rfl := ht.inj q' [] b hlen (Nat.zero_le _) hb rfl
      have hk : k = j := by
        obtain ⟨q'', hq''⟩ := hpre
        exact (List.cons.inj hq'').1
      rw [attach_root hn, hn, Option.bind_some, Option.bind_some, hk, update_of_ne hji]
    · rw [attach_of_old hbr hm, hm]

include hi

/-- A tree that is hung below the root of another one becomes part of it. -/
lemma attach : IsTree child (attach h r i e g) r (d + 1) := by
  have hfollow : ∀ j q, q.length ≤ d → follow child (NodeTree.attach h r i e g) r (j :: q) =
      if j = i then follow child g c q else follow child h r (j :: q) :=
    fun j q hq => ht.follow_attach hg hdisj hn he j hq
  have hroot : NodeTree.attach h r i e g r = some (update n i e) := attach_root hn
  -- below the root a path is in one of the trees
  have hcase : ∀ j q a, q.length ≤ d →
      follow child (NodeTree.attach h r i e g) r (j :: q) = some a →
      (j = i ∧ follow child g c q = some a ∧ ∃ m, g a = some m) ∨
      (follow child h r (j :: q) = some a ∧ a ≠ r ∧ ∃ m, h a = some m) := by
    intro j q a hq ha
    rw [hfollow j q hq] at ha
    split_ifs at ha with hji
    · exact .inl ⟨hji, ha, hg.alive q a hq ha⟩
    · refine .inr ⟨ha, ?_, ht.alive (j :: q) a (Nat.succ_le_succ hq) ha⟩
      rintro rfl
      cases ht.inj (j :: q) [] a (Nat.succ_le_succ hq) (Nat.zero_le _) ha rfl
  have hmixed : ∀ {a m m'}, g a = some m → h a = some m' → False := by
    intro a m m' hm hm'
    rw [hdisj a m hm] at hm'
    cases hm'
  refine ⟨?_, ?_, ?_⟩
  · intro p a hp ha
    cases p with
    | nil =>
      rw [← Option.some.inj ha]
      exact ⟨_, hroot⟩
    | cons j q =>
      obtain ⟨-, -, m, hm⟩ | ⟨-, hne, m, hm⟩ := hcase j q a (Nat.le_of_succ_le_succ hp) ha
      · exact ⟨m, attach_of_new hdisj hn hm⟩
      · exact ⟨m, attach_of_old hne hm⟩
  · have hnil : ∀ j q, q.length ≤ d →
        follow child (NodeTree.attach h r i e g) r (j :: q) ≠ some r := by
      intro j q hq hr
      obtain ⟨-, -, m, hm⟩ | ⟨-, hne, -⟩ := hcase j q r hq hr
      · exact hmixed hm hn
      · exact hne rfl
    intro p q a hp hq hpa hqa
    match p, q with
    | [], [] => rfl
    | [], j :: q =>
      rw [← Option.some.inj hpa] at hqa
      exact absurd hqa (hnil j q (Nat.le_of_succ_le_succ hq))
    | j :: p, [] =>
      rw [← Option.some.inj hqa] at hpa
      exact absurd hpa (hnil j p (Nat.le_of_succ_le_succ hp))
    | j :: p, k :: q =>
      obtain ⟨rfl, hp', m, hm⟩ | ⟨hp', -, m, hm⟩ := hcase j p a (Nat.le_of_succ_le_succ hp) hpa
      · obtain ⟨rfl, hq', -⟩ | ⟨-, -, m', hm'⟩ := hcase k q a (Nat.le_of_succ_le_succ hq) hqa
        · rw [hg.inj p q a (Nat.le_of_succ_le_succ hp) (Nat.le_of_succ_le_succ hq) hp' hq']
        · exact (hmixed hm hm').elim
      · obtain ⟨-, -, m', hm'⟩ | ⟨hq', -⟩ := hcase k q a (Nat.le_of_succ_le_succ hq) hqa
        · exact (hmixed hm' hm).elim
        · exact ht.inj _ _ a hp hq hp' hq'
  · intro a m ha
    by_cases har : a = r
    · exact ⟨[], Nat.zero_le _, by rw [har]; rfl⟩
    · rw [NodeTree.attach, setEntry_of_ne har] at ha
      cases hold : h a with
      | some m' =>
        obtain ⟨p, hp, hpa⟩ := ht.reached a m' hold
        cases p with
        | nil => exact absurd (Option.some.inj hpa).symm har
        | cons j q =>
          refine ⟨j :: q, hp, ?_⟩
          rw [hfollow j q (Nat.le_of_succ_le_succ hp), if_neg, hpa]
          rintro rfl
          rw [follow, hn, Option.bind_some, hi] at hpa
          cases hpa
      | none =>
        rw [hold, Option.none_or] at ha
        obtain ⟨q, hq, hqa⟩ := hg.reached a m ha
        refine ⟨i :: q, Nat.succ_le_succ hq, ?_⟩
        rw [hfollow i q hq, if_pos rfl, hqa]

end IsTree

end Attach

end Edits

end Mars.Lib.NodeTree
