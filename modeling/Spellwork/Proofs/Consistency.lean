import Spellwork.Proofs.ArenaOperations
import Spellwork.Proofs.Insertion

/-!
# Header and lists in step

An arena comes into being empty, from an outline, or by loading a list of records, and changes by
the operations of `Arena.Step`. Its maps say the same thing more than once, and every operation that
succeeds writes all that belongs together (`Arena.Reachable.consistent`); one that fails leaves no
trace, which is said of attaching, the one operation that works in place.

The proof goes by the trees that the arenas hold. An operation on the arena of a tree is the
operation on the tree, so the arenas that there are are those of the trees that there are
(`Arena.reachable_iff`), and of the arena of a tree the records, lists and chains of parents are
known. Laws of editing trees are laws of editing arenas for the same reason.
-/

namespace Spellwork

namespace Arena

open Spellwork.Tree

/-- One operation on an arena. Attaching hands back the arena it worked on also where it fails. -/
inductive Step : Arena → Arena → Prop where
  | attach (a : Arena) (slot : Slot) (id : NodeId) (e : Effect) :
      Step a ((Arena.attach slot id e).run a).2
  | insert {a a' : Arena} {slot : Slot} {id : NodeId} {e : Effect}
      (h : a.insert slot id e = .ok a') : Step a a'
  | update {a a' : Arena} {id : NodeId} {change : Effect → Effect}
      (h : a.update id change = .ok a') : Step a a'
  | delete {a a' : Arena} {id : NodeId} (h : a.delete id = .ok a') : Step a a'
  | scale {s s' : ScaledArena} {scaling : Scaling} {choice : Option UInt64}
      (h : s.run scaling choice = .ok s') : Step s.effects s'.effects
  | activate {σ : Type} [DiceSource σ] {a : Arena} {actor : Actor} {subject : Subject}
      {options : ActivationOptions} {s s' : σ} {result : ActivatedArena}
      (h : a.activate actor subject options s = (.ok result, s')) : Step a result.effects

/-- The arenas that operations make of the empty one, of those that are planted and of those that
are loaded. -/
inductive Reachable : Arena → Prop where
  | empty : Reachable empty
  | plant {outlines : List Outline} {mint mint' : Random.Mint} {a : Arena}
      (h : Arena.plant outlines mint = .ok (a, mint')) : Reachable a
  | load {rs : List Record} {a : Arena} (h : Arena.ofRecords? rs = .ok a) : Reachable a
  | step {a a' : Arena} (h : Reachable a) (hs : Step a a') : Reachable a'

/-! ## The arenas of trees -/

theorem exists_of_map_eq_ok {ε α β : Type} {x : Except ε α} {f : α → β} {b : β}
    (h : x.map f = .ok b) : ∃ a, x = .ok a ∧ f a = b := by
  cases x with
  | error e => cases h
  | ok a => exact ⟨a, rfl, Except.ok.inj h⟩

/-- A step from the arena of a tree is a step of that tree. -/
theorem Step.exists_tree {t : Tree} (h : Valid t) {a : Arena} (hs : Step (ofTree t) a) :
    ∃ t', Tree.Step t t' ∧ a = ofTree t' := by
  generalize hb : ofTree t = b at hs
  cases hs with
  | attach b slot id e =>
      subst hb
      exact ⟨_, .attach t slot id e, by rw [h.attach_ofTree]⟩
  | insert hok =>
      subst hb
      rw [h.insert_ofTree] at hok
      obtain ⟨t', ht, rfl⟩ := exists_of_map_eq_ok hok
      exact ⟨t', .insert ht, rfl⟩
  | update hok =>
      subst hb
      rw [h.update_ofTree] at hok
      obtain ⟨t', ht, rfl⟩ := exists_of_map_eq_ok hok
      exact ⟨t', .update ht, rfl⟩
  | delete hok =>
      subst hb
      rw [h.delete_ofTree] at hok
      obtain ⟨t', ht, rfl⟩ := exists_of_map_eq_ok hok
      exact ⟨t', .delete ht, rfl⟩
  | @scale s s' scaling choice hok =>
      obtain ⟨effects, targets, area, duration, label, steps⟩ := s
      dsimp only at hb
      subst hb
      have hrun := ScaledArena.run_ofScaled (s := ⟨t, targets, area, duration, label, steps⟩) h
        scaling choice
      rw [ScaledArena.ofScaled, hok] at hrun
      obtain ⟨u, hu, rfl⟩ := exists_of_map_eq_ok hrun.symm
      -- the label that was there before is not looked at
      have hscale : Upcast.scale ⟨0, scaling, t, targets, area, duration⟩ steps choice = .ok u := by
        rw [← hu]
        unfold Upcast.scale Upcast.run
        cases Upcast.select scaling choice <;> rfl
      exact ⟨u.effects, .scale hscale, rfl⟩
  | activate hok =>
      subst hb
      rw [h.activate_ofTree] at hok
      obtain ⟨hres, hdice⟩ := Prod.mk.inj hok
      obtain ⟨r, hr, rfl⟩ := exists_of_map_eq_ok hres
      exact ⟨r.tree, .activate (Prod.ext hr hdice), rfl⟩

/-- A step of a tree is a step of its arena. -/
theorem Step.of_tree {t t' : Tree} (h : Valid t) (hs : Tree.Step t t') :
    Step (ofTree t) (ofTree t') := by
  cases hs with
  | attach t slot id e =>
      have hstep := Step.attach (ofTree t) slot id e
      rwa [h.attach_ofTree] at hstep
  | insert hok => exact .insert (by rw [h.insert_ofTree, hok]; rfl)
  | update hok => exact .update (by rw [h.update_ofTree, hok]; rfl)
  | delete hok => exact .delete (by rw [h.delete_ofTree, hok]; rfl)
  | @scale p steps choice s hok =>
      have hrun := ScaledArena.run_ofScaled (s := ⟨p.effects, p.targets, p.area, p.duration, none,
        steps⟩) h p.scaling choice
      rw [show Upcast.run ⟨p.effects, p.targets, p.area, p.duration, none, steps⟩ p.scaling choice =
        .ok s from hok] at hrun
      exact .scale hrun
  | @scaleTree _ _ scaling steps choice label hok =>
      obtain ⟨s, hs, heq⟩ := exists_of_map_eq_ok hok
      obtain ⟨rfl, rfl⟩ := Prod.mk.inj heq
      have hrun := ScaledArena.run_ofScaled (s := { effects := t, steps }) h scaling choice
      rw [hs] at hrun
      exact .scale hrun
  | @activate σ _ _ actor subject options s s' a hok =>
      have hrun := h.activate_ofTree actor subject options s
      rw [hok] at hrun
      exact .activate hrun

/-- The arenas that there are are those of the trees that there are. -/
theorem reachable_iff {a : Arena} : a.Reachable ↔ ∃ t, Tree.Reachable t ∧ a = ofTree t := by
  constructor
  · intro h
    induction h with
    | empty => exact ⟨.nil, .empty, rfl⟩
    | plant hok =>
        rw [plant_ofTree] at hok
        obtain ⟨planted, hplant, heq⟩ := exists_of_map_eq_ok hok
        obtain ⟨rfl, rfl⟩ := Prod.mk.inj heq
        exact ⟨planted.1, .plant hplant, rfl⟩
    | load hok =>
        rw [ofRecords?_ofTree] at hok
        obtain ⟨t, ht, rfl⟩ := exists_of_map_eq_ok hok
        exact ⟨t, .load ht, rfl⟩
    | step _ hs ih =>
        obtain ⟨t, ht, rfl⟩ := ih
        obtain ⟨t', hstep, rfl⟩ := Step.exists_tree ht.valid hs
        exact ⟨t', .step ht hstep, rfl⟩
  · rintro ⟨t, ht, rfl⟩
    induction ht with
    | empty => exact .empty
    | @plant outlines mint mint' t hok =>
        have hplant : Arena.plant outlines mint = .ok (ofTree t, mint') := by
          rw [plant_ofTree, hok]
          rfl
        exact .plant hplant
    | load hok => exact .load (by rw [ofRecords?_ofTree, hok]; rfl)
    | step ht hs ih => exact .step ih (Step.of_tree ht.valid hs)

/-! ## Consistency -/

/-- A chain of parents leads from the id to a record without a parent. -/
inductive Rooted (a : Arena) : NodeId → Prop where
  | root {id : NodeId} {r : Record} (hr : a.nodes.lookup id = some r) (hp : r.parent = none) :
      Rooted a id
  | child {id p : NodeId} {r : Record} (hr : a.nodes.lookup id = some r) (hp : r.parent = some p)
      (above : Rooted a p) : Rooted a id

/-- The maps of an arena agree: every record stands under its own id; an id with a record is listed
once in all, in the place that its header names; what is listed has a record; chains of parents end
in roots; owners, shared rolls and roots are of the right kind; and edges are kept in the order of
outcomes and only where they lead somewhere. -/
structure Consistent (a : Arena) : Prop where
  key : ∀ id r, a.nodes.lookup id = some r → r.id = id
  listed_once : ∀ id r, a.nodes.lookup id = some r →
    ∃ place, r.slot? = some place ∧ ∀ s, (a.listing s).count id = if s = place then 1 else 0
  listed_exists : ∀ s, ∀ id ∈ a.listing s, id ∈ a.nodes
  rooted : ∀ id ∈ a.nodes, a.Rooted id
  owned : ∀ p es, a.edges.lookup p = some es →
    ∃ r, a.nodes.lookup p = some r ∧ ∀ e ∈ es, r.effect.canOwn e.1 = true
  shared : ∀ p, ∀ id ∈ a.childrenOf p .sharedRolls, ∀ r, a.nodes.lookup id = some r →
    r.effect.isDamage = true
  root_kind : ∀ id ∈ a.roots, ∀ r, a.nodes.lookup id = some r → r.effect.isDamageOutcome = false
  leading : ∀ p es, a.edges.lookup p = some es →
    es ≠ [] ∧ (es.Pairwise fun e f => e.1.rank < f.1.rank) ∧ ∀ e ∈ es, e.2 ≠ []

theorem rooted_ofTree {t : Tree} (hnd : t.ids.Nodup) {id : NodeId}
    (h : Spellwork.Rooted t.records id) : (ofTree t).Rooted id := by
  have hlookup : ∀ r ∈ t.records, (ofTree t).nodes.lookup r.id = some r := fun r hr =>
    (get?_ofTree t r.id).trans ((get?_eq_some_iff hnd).mpr ⟨hr, rfl⟩)
  induction h with
  | root hr hp => exact .root (hlookup _ hr) hp
  | child hr hp _ ih => exact .child (hlookup _ hr) hp ih

theorem consistent_ofTree {t : Tree} (h : Valid t) : Consistent (ofTree t) := by
  have hformed := h.wellFormed
  have hlookup : ∀ id, (ofTree t).nodes.lookup id = t.get? id := get?_ofTree t
  have hmem : ∀ id, id ∈ (ofTree t).nodes ↔ ∃ r, t.get? id = some r := fun id => by
    rw [Finmap.mem_iff, hlookup]
  refine ⟨?_, ?_, ?_, ?_, ?_, ?_, ?_, ?_⟩
  · intro id r hr
    exact hformed.key id r ((hlookup id).symm.trans hr)
  · intro id r hr
    obtain ⟨place, hplace, hcount⟩ := hformed.listed_once id r ((hlookup id).symm.trans hr)
    exact ⟨place, hplace, fun s => by rw [h.listing_ofTree, hcount]⟩
  · intro s id hid
    rw [h.listing_ofTree] at hid
    exact (hmem id).mpr (hformed.listed_exists s id hid)
  · intro id hid
    obtain ⟨r, hr⟩ := (hmem id).mp hid
    exact rooted_ofTree h.ids_nodup (hformed.rooted id r hr)
  · intro p es hes
    rw [lookup_edges_ofTree h.ids_nodup] at hes
    obtain ⟨hne, -, hlists⟩ := hformed.edges_some p es hes
    have howned : ∀ e ∈ es, ∃ r, t.get? p = some r ∧ r.effect.canOwn e.1 = true := fun e he =>
      hformed.owned p e.1 ((hlists e he).2 ▸ (hlists e he).1)
    obtain ⟨e, he⟩ := List.exists_mem_of_ne_nil es hne
    obtain ⟨r, hr, -⟩ := howned e he
    refine ⟨r, (hlookup p).trans hr, fun f hf => ?_⟩
    obtain ⟨r', hr', hown⟩ := howned f hf
    exact Option.some.inj (hr.symm.trans hr') ▸ hown
  · intro p id hid r hr
    have hlist : (ofTree t).childrenOf p .sharedRolls = t.childrenOf p .sharedRolls :=
      h.listing_ofTree (some (p, .sharedRolls))
    exact hformed.shared p id r (hlist ▸ hid) ((hlookup id).symm.trans hr)
  · intro id hid r hr
    exact hformed.root_kind id r hid ((hlookup id).symm.trans hr)
  · intro p es hes
    obtain ⟨hne, htidy⟩ := h.trim_ofTree p es hes
    exact ⟨hne, htidy.ascending, htidy.leads⟩

/-- Whatever operations an arena has gone through, its maps agree, and attaching to it in vain
leaves it as it is. -/
theorem Reachable.consistent {a : Arena} (h : a.Reachable) :
    Consistent a ∧ ∀ slot id e err, ((attach slot id e).run a).1 = .error err →
      ((attach slot id e).run a).2 = a := by
  obtain ⟨t, ht, rfl⟩ := reachable_iff.mp h
  exact ⟨consistent_ofTree ht.valid, fun _ _ _ _ => attach_eq_of_error⟩

/-- A saving throw with damage among its shared rolls, laid out by attaching. -/
def laidRoll : Arena :=
  ((attach (some ("save", .sharedRolls)) "fire" (.damage ⟨.fire, "2d6", none, none, none⟩)).run
    ((attach none "save" (.savingThrow ⟨.will, none⟩)).run empty).2).2

theorem reachable_laidRoll : laidRoll.Reachable :=
  (Reachable.empty.step (.attach _ none "save" (.savingThrow ⟨.will, none⟩))).step
    (.attach _ (some ("save", .sharedRolls)) "fire" (.damage ⟨.fire, "2d6", none, none, none⟩))

/-- The damage is listed where its header says, a second saving throw of the same id is refused, and
once the damage is taken away the saving throw keeps no empty edges. -/
theorem consistent_laidRoll :
    Consistent laidRoll ∧
      laidRoll.nodes.lookup "fire" =
        some ⟨"fire", some "save", some .sharedRolls, .damage ⟨.fire, "2d6", none, none, none⟩⟩ ∧
      laidRoll.edges.lookup "save" = some [(.sharedRolls, ["fire"])] ∧ laidRoll.roots = ["save"] ∧
      ((attach none "save" (.condition ⟨"prone", none⟩)).run laidRoll).1 =
        .error (.duplicateId "save") ∧
      ((attach none "save" (.condition ⟨"prone", none⟩)).run laidRoll).2 = laidRoll ∧
      ∃ a, laidRoll.delete "fire" = .ok a ∧ Consistent a ∧ a.nodes.lookup "fire" = none ∧
        a.edges.lookup "save" = none := by
  obtain ⟨hconsistent, hattach⟩ := Reachable.consistent reachable_laidRoll
  have herr : ((attach none "save" (.condition ⟨"prone", none⟩)).run laidRoll).1 =
      .error (.duplicateId "save") := by decide
  obtain ⟨a, hok, hnode, hedges⟩ : ∃ a, laidRoll.delete "fire" = .ok a ∧
      a.nodes.lookup "fire" = none ∧ a.edges.lookup "save" = none :=
    ⟨_, rfl, by decide, by decide⟩
  exact ⟨hconsistent, by decide, by decide, by decide, herr,
    hattach _ _ _ _ herr, a, hok, (Reachable.consistent (reachable_laidRoll.step (.delete hok))).1,
    hnode, hedges⟩

/-- A record that is written and not listed is what no operation leaves behind. -/
theorem not_consistent_unlisted :
    ¬ Consistent (empty.store "save" ⟨"save", none, none, .savingThrow ⟨.will, none⟩⟩) := by
  intro h
  obtain ⟨place, -, hcount⟩ := h.listed_once "save" _ (Finmap.lookup_insert _)
  have honce := hcount place
  rcases place with _ | ⟨p, o⟩ <;>
    simp [listing, store, empty, childrenOf, edgesOf, listUnder] at honce

/-! ## Laws of editing -/

/-- A chain of parents leads from the second id to the first. -/
def IsAncestor (a : Arena) : NodeId → NodeId → Prop :=
  Relation.TransGen fun p id => ∃ r, a.get? id = some r ∧ r.parent = some p

theorem isAncestor_ofTree (t : Tree) : (ofTree t).IsAncestor = t.IsAncestor := by
  simp only [IsAncestor, Tree.IsAncestor, get?_ofTree]
  rfl

/-- Two edits in a row do to the arena of a tree what they do to the tree. -/
theorem bind_ofTree {ε : Type} {x : Except ε Tree} {f : Arena → Except ε Arena}
    {g : Tree → Except ε Tree} (h : ∀ t, x = .ok t → f (ofTree t) = (g t).map ofTree) :
    (x.map ofTree).bind f = (x.bind g).map ofTree := by
  cases x with
  | error e => rfl
  | ok t => exact h t rfl

section Laws

variable {a : Arena} (h : a.Reachable)

include h

/-- Taking a newly inserted effect away again gives back the arena as it was. -/
theorem Reachable.delete_insert {slot : Slot} {id : NodeId} {e : Effect} {a' : Arena}
    (hok : a.insert slot id e = .ok a') : a'.delete id = .ok a := by
  obtain ⟨t, ht, rfl⟩ := reachable_iff.mp h
  rw [ht.valid.insert_ofTree] at hok
  obtain ⟨t', hinsert, rfl⟩ := exists_of_map_eq_ok hok
  rw [(ht.valid.insert hinsert).delete_ofTree, ht.valid.delete_insert hinsert]
  rfl

/-- Insertions of different effects into different places commute, if neither place is below the
other's newcomer. -/
theorem Reachable.insert_insert {slot slot' : Slot} (hslots : slot ≠ slot') {id id' : NodeId}
    (hids : id ≠ id') (hid : slot.map Prod.fst ≠ some id') (hid' : slot'.map Prod.fst ≠ some id)
    {e e' : Effect} {a' : Arena}
    (hok : (a.insert slot id e).bind (Arena.insert slot' id' e') = .ok a') :
    (a.insert slot' id' e').bind (Arena.insert slot id e) = .ok a' := by
  obtain ⟨t, ht, rfl⟩ := reachable_iff.mp h
  have hv := ht.valid
  rw [hv.insert_ofTree, bind_ofTree fun u hu => (hv.insert hu).insert_ofTree slot' id' e'] at hok
  obtain ⟨t', hinserts, rfl⟩ := exists_of_map_eq_ok hok
  rw [hv.insert_ofTree, bind_ofTree fun u hu => (hv.insert hu).insert_ofTree slot id e,
    hv.insert_insert hslots hids hid hid' hinserts]
  rfl

/-- Removals commute where neither effect is below the other. -/
theorem Reachable.delete_comm {x y : NodeId} (hx : a.contains x = true) (hy : a.contains y = true)
    (hxy : ¬ a.IsAncestor x y) (hyx : ¬ a.IsAncestor y x) :
    (a.delete x).bind (Arena.delete y) = (a.delete y).bind (Arena.delete x) := by
  obtain ⟨t, ht, rfl⟩ := reachable_iff.mp h
  have hv := ht.valid
  rw [isAncestor_ofTree] at hxy hyx
  rw [contains_ofTree] at hx hy
  rw [hv.delete_ofTree, hv.delete_ofTree, bind_ofTree fun u hu => (hv.delete hu).delete_ofTree y,
    bind_ofTree fun u hu => (hv.delete hu).delete_ofTree x, (hv.delete_comm hx hy hxy hyx).1]

/-- An insertion commutes with the removal of an effect that the place is not below. -/
theorem Reachable.insert_delete_comm {slot : Slot} {id x : NodeId} (e : Effect)
    (hx : a.contains x = true) (hid : a.contains id = false)
    (hstay : ∀ p, slot.map Prod.fst = some p → p ≠ x ∧ ¬ a.IsAncestor x p) :
    (a.insert slot id e).bind (Arena.delete x) = (a.delete x).bind (Arena.insert slot id e) := by
  obtain ⟨t, ht, rfl⟩ := reachable_iff.mp h
  have hv := ht.valid
  rw [isAncestor_ofTree] at hstay
  rw [contains_ofTree] at hx hid
  rw [hv.insert_ofTree, hv.delete_ofTree, bind_ofTree fun u hu => (hv.insert hu).delete_ofTree x,
    bind_ofTree fun u hu => (hv.delete hu).insert_ofTree slot id e,
    hv.insert_delete_comm e hx hid hstay]

end Laws

end Arena

end Spellwork
