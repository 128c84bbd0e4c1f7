import Vans.Factory.Model
import Mathlib.Order.WellFounded
/-!
# The factory — the tree that is described

All children of a component have one name, so what the organization
describes is a walk from name to name, down to a count that is not
positive. A walk that comes to a name the dispatch does not handle ends
in the null component. A walk that comes to its end builds the tree
described, unless a dumper is refused on the way back or the last count
is negative.
-/

namespace Vans

namespace Factory

variable {σ : Type}

/-! ## What is described -/

/-- The second name has the first for its children. -/
def ChildOf (cfg : RootConfig) (child name : Text) : Prop :=
  ∃ org, cfg.getOrganization name = .ok org ∧ 0 < org.count ∧ org.type = child

/-- **The tree is the one described** for the name: as many children as
the count says, each made for the child's name, with the numbers from
zero on, and all of them registered in order. -/
inductive Described (cfg : RootConfig) : Text → ℕ → Node σ → Prop where
  | mk {name : Text} {id : ℕ} {node : Node σ} {org : RootConfig.Organization} (hname : node.name = name)
      (hid : node.id = id) (horg : cfg.getOrganization name = .ok org)
      (hcount : (node.next.length : ℤ) = org.count)
      (hregistered : node.nextLevelComponents = List.range node.next.length)
      (hchildren : ∀ i (hi : i < node.next.length), Described cfg org.type i node.next[i]) :
      Described cfg name id node

/-- **The factory is right**: it throws, or builds the tree described. -/
def BuildsOrThrows (cfg : RootConfig) (result : Build (Node σ)) : Prop :=
  (∃ what, result = .error (.thrown what)) ∨
    ∃ node, result = .ok node ∧ Described cfg Kind.rmc.name 0 node

/-! ## The walk -/

/-- The component of the name can be made. -/
def Made (P : Parts σ) (cfg : RootConfig) (name : Text) : Prop :=
  ∃ kind config own, kindOf name = some kind ∧ cfg.atKey name = .ok config ∧
    P.construct kind config = .ok own

/-- Making the component, or looking up its children, throws. -/
def Refused (P : Parts σ) (cfg : RootConfig) (name : Text) : Prop :=
  ∃ kind, kindOf name = some kind ∧
    ((∃ what, (cfg.atKey name >>= P.construct kind) = .error what) ∨
      ∃ what, cfg.getOrganization name = .error what)

/-- How a walk ends. -/
inductive End where
  | unknown
  | refused
  | leaf (count : ℤ)

/-- The walk down from a name, and its end. -/
inductive Walk (P : Parts σ) (cfg : RootConfig) : Text → End → Prop where
  | unknown {name : Text} (h : kindOf name = none) : Walk P cfg name .unknown
  | refused {name : Text} (h : Refused P cfg name) : Walk P cfg name .refused
  | leaf {name : Text} {org : RootConfig.Organization} (hmade : Made P cfg name)
      (horg : cfg.getOrganization name = .ok org) (hcount : org.count ≤ 0) :
      Walk P cfg name (.leaf org.count)
  | down {name : Text} {org : RootConfig.Organization} {e : End} (hmade : Made P cfg name)
      (horg : cfg.getOrganization name = .ok org) (hcount : 0 < org.count)
      (hwalk : Walk P cfg org.type e) : Walk P cfg name e

/-- Going down from the name along single children one comes to several. -/
inductive Forks (cfg : RootConfig) : Text → Prop where
  | here {name : Text} {org : RootConfig.Organization} (horg : cfg.getOrganization name = .ok org)
      (hcount : 1 < org.count) : Forks cfg name
  | child {name : Text} {org : RootConfig.Organization} (horg : cfg.getOrganization name = .ok org)
      (hcount : org.count = 1) (h : Forks cfg org.type) : Forks cfg name

/-- Some NVRAM system of the tree is refused its dumper. -/
inductive DumperFails (P : Parts σ) (cfg : RootConfig) : Text → ℕ → Prop where
  | here {name : Text} {id : ℕ} {org : RootConfig.Organization} (hname : name = Kind.nvramSystem.name)
      (horg : cfg.getOrganization name = .ok org) (hcount : org.count ≠ 0)
      (h : (∃ what, makeDumper P cfg id = .error what) ∨ Forks cfg name) : DumperFails P cfg name id
  | child {name : Text} {id i : ℕ} {org : RootConfig.Organization}
      (horg : cfg.getOrganization name = .ok org) (hi : i < org.count.toNat)
      (h : DumperFails P cfg org.type i) : DumperFails P cfg name id

/-- **When the factory is right**: no name it does not handle is walked
to, and at a negative count a dumper is refused. -/
def Handled (P : Parts σ) (cfg : RootConfig) : Prop :=
  ¬ Walk P cfg Kind.rmc.name .unknown ∧
    ∀ count < 0, Walk P cfg Kind.rmc.name (.leaf count) → DumperFails P cfg Kind.rmc.name 0

section Walks

variable {P : Parts σ} {cfg : RootConfig} {name : Text} {org : RootConfig.Organization} {e e' : End}

theorem Made.not_refused (hmade : Made P cfg name) (horg : cfg.getOrganization name = .ok org) :
    ¬ Refused P cfg name := by
  obtain ⟨kind, config, own, hkind, hconfig, hown⟩ := hmade
  rintro ⟨kind', hkind', h⟩
  obtain rfl := Option.some.inj (hkind.symm.trans hkind')
  rcases h with ⟨what, h⟩ | ⟨what, h⟩
  · rw [hconfig, ok_bind, hown] at h
    cases h
  · rw [horg] at h
    cases h

/-- **A walk has one end.** -/
theorem Walk.unique (h : Walk P cfg name e) (h' : Walk P cfg name e') : e = e' := by
  induction h with
  | unknown h =>
      cases h' with
      | unknown => rfl
      | refused hrefused => obtain ⟨kind, hkind, -⟩ := hrefused; rw [h] at hkind; cases hkind
      | leaf hmade | down hmade => obtain ⟨kind, _, _, hkind, -⟩ := hmade; rw [h] at hkind; cases hkind
  | refused h =>
      cases h' with
      | unknown hnone => obtain ⟨kind, hkind, -⟩ := h; rw [hnone] at hkind; cases hkind
      | refused => rfl
      | leaf hmade horg | down hmade horg => exact absurd h (hmade.not_refused horg)
  | leaf hmade horg hcount =>
      cases h' with
      | unknown hnone => obtain ⟨kind, _, _, hkind, -⟩ := hmade; rw [hnone] at hkind; cases hkind
      | refused h => exact absurd h (hmade.not_refused horg)
      | leaf _ horg' => rw [Except.ok.inj (horg.symm.trans horg')]
      | down _ horg' hcount' =>
          obtain rfl := Except.ok.inj (horg.symm.trans horg')
          omega
  | down hmade horg hcount _ ih =>
      cases h' with
      | unknown hnone => obtain ⟨kind, _, _, hkind, -⟩ := hmade; rw [hnone] at hkind; cases hkind
      | refused h => exact absurd h (hmade.not_refused horg)
      | leaf _ horg' hcount' =>
          obtain rfl := Except.ok.inj (horg.symm.trans horg')
          omega
      | down _ horg' _ hwalk' =>
          obtain rfl := Except.ok.inj (horg.symm.trans horg')
          exact ih hwalk'

/-- **Every walk in an acyclic description has an end.** -/
theorem exists_walk (hacc : Acc (ChildOf cfg) name) : ∃ e, Walk P cfg name e := by
  induction hacc with
  | intro name _ ih =>
      cases hkind : kindOf name with
      | none => exact ⟨_, .unknown hkind⟩
      | some kind =>
          cases horg : cfg.getOrganization name with
          | error what => exact ⟨_, .refused ⟨kind, hkind, .inr ⟨what, horg⟩⟩⟩
          | ok org =>
              cases hconfig : cfg.atKey name with
              | error what =>
                  exact ⟨_, .refused ⟨kind, hkind, .inl ⟨what, by rw [hconfig]; rfl⟩⟩⟩
              | ok config =>
                  cases hown : P.construct kind config with
                  | error what =>
                      exact ⟨_, .refused ⟨kind, hkind, .inl ⟨what, by rw [hconfig, ok_bind, hown]⟩⟩⟩
                  | ok own =>
                      have hmade : Made P cfg name := ⟨kind, config, own, hkind, hconfig, hown⟩
                      by_cases hcount : 0 < org.count
                      · obtain ⟨e, hwalk⟩ := ih org.type ⟨org, horg, hcount, rfl⟩
                        exact ⟨e, .down hmade horg hcount hwalk⟩
                      · exact ⟨_, .leaf hmade horg (by omega)⟩

end Walks

/-! ## Making a component -/

section Single

variable {P : Parts σ} {cfg : RootConfig} {name : Text} {org : RootConfig.Organization} {id depth : ℕ}

/-- An unknown name is a null component, used at once. -/
theorem makeComponent_unknown (h : kindOf name = none) :
    makeComponent P cfg (depth + 1) name id = .error .nullDereference := by
  simp only [makeComponent, makeSingleComponent, h]
  rfl

theorem makeComponent_refused (h : Refused P cfg name) :
    ∃ what, makeComponent P cfg (depth + 1) name id = .error (.thrown what) := by
  obtain ⟨kind, hkind, h⟩ := h
  simp only [makeComponent, makeSingleComponent, hkind]
  cases hconfig : cfg.atKey name with
  | error what => exact ⟨what, rfl⟩
  | ok config =>
      cases hown : P.construct kind config with
      | error what => exact ⟨what, by simp [lift, bind, Except.bind, hown]⟩
      | ok own =>
          rcases h with ⟨what, h⟩ | ⟨what, h⟩
          · rw [hconfig, ok_bind, hown] at h
            cases h
          · exact ⟨what, by simp [lift, bind, Except.bind, hown, h, pure, Except.pure]⟩

/-- **What is made of a name that can be made**: the component, its
children, and for an NVRAM system its dumper. -/
theorem makeComponent_made (hmade : Made P cfg name) (horg : cfg.getOrganization name = .ok org) :
    ∃ own, makeComponent P cfg (depth + 1) name id =
      if org.count ≠ 0 then do
        let ret ← connectChildren (makeComponent P cfg depth org.type) org.count.toNat
          { name := name, id := id, own := own }
        if name = Kind.nvramSystem.name then
          let dumper ← lift (makeDumper P cfg id)
          lift (ret.connectDumper dumper)
        else return ret
      else return { name := name, id := id, own := own } := by
  obtain ⟨kind, config, own, hkind, hconfig, hown⟩ := hmade
  refine ⟨own, ?_⟩
  simp only [makeComponent, makeSingleComponent, hkind, hconfig, hown, horg, lift, ok_bind, pure,
    Except.pure]

end Single

/-! ## Connecting the children -/

section Children

variable {make : ℕ → Build (Node σ)} {Q : ℕ → Node σ → Prop} {ret : Node σ} {count : ℕ}
  {failure : Failure}

theorem connectChildren_succ : connectChildren make (count + 1) ret =
    connectChildren make count ret >>= fun ret => do
      let next ← make count
      return ret.connectNext next := by
  simp [connectChildren, List.range_succ, List.foldlM_append]

/-- **The first child's failure is the loop's.** -/
theorem connectChildren_first (h : make 0 = .error failure) (hcount : 0 < count) :
    connectChildren make count ret = .error failure := by
  obtain ⟨n, rfl⟩ := Nat.exists_eq_succ_of_ne_zero (Nat.ne_of_gt hcount)
  induction n with
  | zero => simp [connectChildren, List.range_succ, h, bind, Except.bind]
  | succ n ih =>
      rw [connectChildren_succ, ih (Nat.succ_pos n)]
      rfl

/-- **Where every child can be made, all are connected**, in order. -/
theorem connectChildren_ok (hnext : ret.next = []) (hregistered : ret.nextLevelComponents = [])
    (h : ∀ i < count, ∃ c, make i = .ok c ∧ Q i c) :
    ∃ ret', connectChildren make count ret = .ok ret' ∧ ret'.name = ret.name ∧ ret'.id = ret.id ∧
      ret'.next.length = count ∧ ret'.nextLevelComponents = List.range count ∧
      ∀ i (hi : i < ret'.next.length), Q i ret'.next[i] := by
  induction count with
  | zero =>
      refine ⟨ret, rfl, rfl, rfl, by simp [hnext], by simpa using hregistered, ?_⟩
      intro i hi
      simp [hnext] at hi
  | succ count ih =>
      obtain ⟨ret', hret, hname, hid, hlen, hreg, hall⟩ := ih fun i hi => h i (by omega)
      obtain ⟨c, hc, hQ⟩ := h count (Nat.lt_succ_self count)
      refine ⟨ret'.connectNext c, ?_, hname, hid, by simp [Node.connectNext, hlen], ?_, ?_⟩
      · rw [connectChildren_succ, hret, ok_bind, hc]
        rfl
      · simp [Node.connectNext, hreg, hlen, List.range_succ]
      · intro i hi
        simp only [Node.connectNext, List.length_append, List.length_singleton, hlen] at hi ⊢
        by_cases hlast : i = count
        · subst hlast
          simpa [List.getElem_append_right, hlen] using hQ
        · rw [List.getElem_append_left (by omega)]
          exact hall i (by omega)

theorem connectChildren_ne_error (h : ∀ i < count, ∃ c, make i = .ok c) :
    connectChildren make count ret ≠ .error failure := by
  induction count with
  | zero => exact pure_ne_error
  | succ count ih =>
      rw [connectChildren_succ]
      obtain ⟨c, hc⟩ := h count (Nat.lt_succ_self count)
      refine bind_ne_error (ih fun i hi => h i (by omega)) fun ret' _ => ?_
      rw [hc]
      exact pure_ne_error

/-- **Where a child throws, the loop throws.** -/
theorem connectChildren_thrown (h : ∀ i < count, (∃ what, make i = .error (.thrown what)) ∨
      ∃ c, make i = .ok c) (hfails : ∃ i < count, ∃ what, make i = .error (.thrown what)) :
    ∃ what, connectChildren make count ret = .error (.thrown what) := by
  induction count with
  | zero =>
      obtain ⟨i, hi, -⟩ := hfails
      omega
  | succ count ih =>
      rw [connectChildren_succ]
      by_cases hbefore : ∃ i < count, ∃ what, make i = .error (.thrown what)
      · obtain ⟨what, hwhat⟩ := ih (fun i hi => h i (by omega)) hbefore
        exact ⟨what, by rw [hwhat]; rfl⟩
      · obtain ⟨i, hi, what, hwhat⟩ := hfails
        obtain rfl : i = count := by
          by_contra hne
          exact hbefore ⟨i, by omega, what, hwhat⟩
        rcases hloop : connectChildren make i ret with failure | ret'
        · -- no child before this one fails
          exfalso
          have hok : ∀ j < i, ∃ c, make j = .ok c := by
            intro j hj
            rcases h j (by omega) with hthrown | hmade
            · exact absurd ⟨j, hj, hthrown⟩ hbefore
            · exact hmade
          exact connectChildren_ne_error hok hloop
        · exact ⟨what, by rw [ok_bind, hwhat]; rfl⟩

end Children

/-! ## Building the tree -/

/-- The tree has the children described, none where the count is
negative. -/
inductive Shape (cfg : RootConfig) : Text → ℕ → Node σ → Prop where
  | mk {name : Text} {id : ℕ} {node : Node σ} {org : RootConfig.Organization} (hname : node.name = name)
      (hid : node.id = id) (horg : cfg.getOrganization name = .ok org)
      (hcount : node.next.length = org.count.toNat)
      (hregistered : node.nextLevelComponents = List.range node.next.length)
      (hchildren : ∀ i (hi : i < node.next.length), Shape cfg org.type i node.next[i]) :
      Shape cfg name id node

section Tree

variable {P : Parts σ} {cfg : RootConfig} {name : Text} {org : RootConfig.Organization} {id : ℕ} {count : ℤ}
  {node : Node σ} {dumper : Dumper}

theorem forks_iff (horg : cfg.getOrganization name = .ok org) :
    Forks cfg name ↔ 1 < org.count ∨ (org.count = 1 ∧ Forks cfg org.type) := by
  constructor
  · intro h
    cases h with
    | here horg' hcount => exact .inl (Except.ok.inj (horg'.symm.trans horg) ▸ hcount)
    | child horg' hcount h =>
        obtain rfl := Except.ok.inj (horg'.symm.trans horg)
        exact .inr ⟨hcount, h⟩
  · rintro (hcount | ⟨hcount, h⟩)
    · exact .here horg hcount
    · exact .child horg hcount h

/-- **A dumper is handed down** unless one comes to several children,
and the tree keeps its shape. -/
theorem connectDumper_spec (h : Shape cfg name id node) :
    (Forks cfg name ∧ ∃ what, node.connectDumper dumper = .error what) ∨
      (¬ Forks cfg name ∧ ∃ node', node.connectDumper dumper = .ok node' ∧ Shape cfg name id node') := by
  induction h with
  | @mk name id node org hname hid horg hcount hregistered hchildren ih =>
      obtain ⟨name', id', own, old, next, registered⟩ := node
      simp only at hname hid hcount hregistered hchildren ih ⊢
      rw [forks_iff horg]
      match next with
      | [] =>
          simp only [List.length_nil] at hcount
          refine .inr ⟨by omega, ⟨name', id', own, some dumper, [], registered⟩, rfl, ?_⟩
          exact .mk hname hid horg hcount hregistered fun i hi => absurd hi (Nat.not_lt_zero i)
      | [child] =>
          simp only [List.length_singleton] at hcount
          have hone : org.count = 1 := by omega
          rcases ih 0 Nat.one_pos with ⟨hforks, what, hwhat⟩ | ⟨hforks, child', hok, hshape⟩
          · refine .inl ⟨.inr ⟨hone, hforks⟩, what, ?_⟩
            simp only [List.getElem_cons_zero] at hwhat
            rw [Node.connectDumper, hwhat]
            rfl
          · refine .inr ⟨?_, ⟨name', id', own, some dumper, [child'], registered⟩, ?_, ?_⟩
            · rintro (hmore | ⟨-, hforks'⟩)
              · omega
              · exact hforks hforks'
            · simp only [List.getElem_cons_zero] at hok
              rw [Node.connectDumper, hok]
              rfl
            · refine .mk hname hid horg hcount hregistered fun i hi => ?_
              obtain rfl : i = 0 := Nat.lt_one_iff.mp hi
              exact hshape
      | _ :: _ :: rest =>
          simp only [List.length_cons] at hcount
          exact .inl ⟨.inl (by omega), _, rfl⟩

/-- The dumper of a component that has its children. -/
theorem dumper_spec (h : Shape cfg name id node) :
    ((name = Kind.nvramSystem.name ∧ ((∃ what, makeDumper P cfg id = .error what) ∨ Forks cfg name)) ∧
        ∃ what, (if name = Kind.nvramSystem.name then do
            let dumper ← lift (makeDumper P cfg id)
            lift (node.connectDumper dumper)
          else return node) = .error (.thrown what)) ∨
      (¬ (name = Kind.nvramSystem.name ∧
          ((∃ what, makeDumper P cfg id = .error what) ∨ Forks cfg name)) ∧
        ∃ node', (if name = Kind.nvramSystem.name then do
            let dumper ← lift (makeDumper P cfg id)
            lift (node.connectDumper dumper)
          else return node) = .ok node' ∧ Shape cfg name id node') := by
  by_cases hname : name = Kind.nvramSystem.name
  · simp only [hname, true_and, if_true]
    subst hname
    cases hmake : makeDumper P cfg id with
    | error what => exact .inl ⟨.inl ⟨what, rfl⟩, what, rfl⟩
    | ok dumper =>
        rcases @connectDumper_spec σ cfg _ _ _ dumper h with
          ⟨hforks, what, hwhat⟩ | ⟨hforks, node', hok, hshape⟩
        · exact .inl ⟨.inr hforks, what, by rw [lift, ok_bind, hwhat]; rfl⟩
        · refine .inr ⟨?_, node', by rw [lift, ok_bind, hok]; rfl, hshape⟩
          rintro (⟨what, hwhat⟩ | hforks')
          · cases hwhat
          · exact hforks hforks'
  · exact .inr ⟨fun h => hname h.1, node, if_neg hname, h⟩

theorem dumperFails_iff (horg : cfg.getOrganization name = .ok org) :
    DumperFails P cfg name id ↔
      (org.count ≠ 0 ∧ name = Kind.nvramSystem.name ∧
        ((∃ what, makeDumper P cfg id = .error what) ∨ Forks cfg name)) ∨
      ∃ i < org.count.toNat, DumperFails P cfg org.type i := by
  constructor
  · intro h
    cases h with
    | here hname horg' hcount h =>
        obtain rfl := Except.ok.inj (horg'.symm.trans horg)
        exact .inl ⟨hcount, hname, h⟩
    | child horg' hi h =>
        obtain rfl := Except.ok.inj (horg'.symm.trans horg)
        exact .inr ⟨_, hi, h⟩
  · rintro (⟨hcount, hname, h⟩ | ⟨i, hi, h⟩)
    · exact .here hname horg hcount h
    · exact .child horg hi h

/-- **A walk to its end builds the tree**, where no dumper is refused. -/
theorem makeComponent_leaf (h : Walk P cfg name (.leaf count)) :
    ∃ d, ∀ depth, d ≤ depth → ∀ id,
      (DumperFails P cfg name id ∧ ∃ what, makeComponent P cfg depth name id = .error (.thrown what)) ∨
      (¬ DumperFails P cfg name id ∧
        ∃ node, makeComponent P cfg depth name id = .ok node ∧ Shape cfg name id node) := by
  -- along the walk; the depth needed is one more than that of the child
  generalize he : End.leaf count = e at h
  induction h with
  | unknown | refused => cases he
  | @leaf name org hmade horg hcount =>
      refine ⟨1, fun depth hdepth id => ?_⟩
      obtain ⟨depth, rfl⟩ := Nat.exists_eq_succ_of_ne_zero (show depth ≠ 0 by omega)
      obtain ⟨own, hmake⟩ := @makeComponent_made σ P cfg name org id depth hmade horg
      have hzero : org.count.toNat = 0 := Int.toNat_of_nonpos hcount
      have hshape : Shape cfg name id ({ name := name, id := id, own := own } : Node σ) :=
        .mk rfl rfl horg hzero.symm rfl fun i hi => absurd hi (Nat.not_lt_zero i)
      rw [hmake, dumperFails_iff horg, hzero]
      -- a count below zero runs no round of the loop, but may ask for the dumper
      by_cases hc : org.count = 0
      · refine .inr ⟨by simp [hc], _, if_neg (not_not.mpr hc), hshape⟩
      · have hloop : connectChildren (makeComponent P cfg depth org.type) 0
            { name := name, id := id, own := own } = .ok { name := name, id := id, own := own } := rfl
        rw [if_pos hc, hloop, ok_bind]
        rcases @dumper_spec σ P _ _ _ _ hshape with ⟨hfails, hthrown⟩ | ⟨hfails, hok⟩
        · exact .inl ⟨.inl ⟨hc, hfails⟩, hthrown⟩
        · refine .inr ⟨?_, hok⟩
          rintro (⟨-, hfails'⟩ | ⟨i, hi, -⟩)
          · exact hfails hfails'
          · omega
  | @down name org e hmade horg hcount _ ih =>
      obtain ⟨d, hd⟩ := ih he
      refine ⟨d + 1, fun depth hdepth id => ?_⟩
      obtain ⟨depth, rfl⟩ := Nat.exists_eq_succ_of_ne_zero (show depth ≠ 0 by omega)
      obtain ⟨own, hmake⟩ := @makeComponent_made σ P cfg name org id depth hmade horg
      have hchild := hd depth (by omega)
      have hc : org.count ≠ 0 := by omega
      rw [hmake, dumperFails_iff horg, if_pos hc]
      by_cases hfails : ∃ i < org.count.toNat, DumperFails P cfg org.type i
      · obtain ⟨i, hi, hfail⟩ := hfails
        -- the first child whose dumper is refused ends the loop
        obtain ⟨what, hloop⟩ := @connectChildren_thrown σ (makeComponent P cfg depth org.type)
          { name := name, id := id, own := own } org.count.toNat
          (fun j _ => by
            rcases hchild j with ⟨-, hthrown⟩ | ⟨-, c, hok, -⟩
            · exact .inl hthrown
            · exact .inr ⟨c, hok⟩)
          ⟨i, hi, ((hchild i).resolve_right fun h => h.1 hfail).2⟩
        exact .inl ⟨.inr ⟨i, hi, hfail⟩, what, by rw [hloop]; rfl⟩
      · obtain ⟨ret, hloop, hname, hid, hlen, hregistered, hchildren⟩ :=
          @connectChildren_ok σ (makeComponent P cfg depth org.type) (fun i c => Shape cfg org.type i c)
            { name := name, id := id, own := own } org.count.toNat rfl rfl
            (fun i hi => ((hchild i).resolve_left fun h => hfails ⟨i, hi, h.1⟩).2)
        have hshape : Shape cfg name id ret :=
          .mk hname hid horg hlen (by rw [hlen]; exact hregistered) hchildren
        rw [hloop, ok_bind]
        rcases @dumper_spec σ P _ _ _ _ hshape with ⟨hfails', hthrown⟩ | ⟨hfails', hok⟩
        · exact .inl ⟨.inl ⟨hc, hfails'⟩, hthrown⟩
        · refine .inr ⟨?_, hok⟩
          rintro (⟨-, h⟩ | h)
          · exact hfails' h
          · exact hfails h

/-- **A walk to an unknown name ends in the null component.** -/
theorem makeComponent_null (h : Walk P cfg name .unknown) :
    ∃ d, ∀ depth, d ≤ depth → ∀ id, makeComponent P cfg depth name id = .error .nullDereference := by
  generalize he : End.unknown = e at h
  induction h with
  | unknown h =>
      refine ⟨1, fun depth hdepth id => ?_⟩
      obtain ⟨depth, rfl⟩ := Nat.exists_eq_succ_of_ne_zero (show depth ≠ 0 by omega)
      exact makeComponent_unknown h
  | refused | leaf => cases he
  | @down name org e hmade horg hcount _ ih =>
      obtain ⟨d, hd⟩ := ih he
      refine ⟨d + 1, fun depth hdepth id => ?_⟩
      obtain ⟨depth, rfl⟩ := Nat.exists_eq_succ_of_ne_zero (show depth ≠ 0 by omega)
      obtain ⟨own, hmake⟩ := @makeComponent_made σ P cfg name org id depth hmade horg
      rw [hmake, if_pos (show org.count ≠ 0 by omega),
        connectChildren_first (hd depth (by omega) 0) (by omega)]
      rfl

/-- **A walk that is refused throws.** -/
theorem makeComponent_throws (h : Walk P cfg name .refused) :
    ∃ d, ∀ depth, d ≤ depth → ∀ id,
      ∃ what, makeComponent P cfg depth name id = .error (.thrown what) := by
  generalize he : End.refused = e at h
  induction h with
  | unknown | leaf => cases he
  | refused h =>
      refine ⟨1, fun depth hdepth id => ?_⟩
      obtain ⟨depth, rfl⟩ := Nat.exists_eq_succ_of_ne_zero (show depth ≠ 0 by omega)
      exact makeComponent_refused h
  | @down name org e hmade horg hcount _ ih =>
      obtain ⟨d, hd⟩ := ih he
      refine ⟨d + 1, fun depth hdepth id => ?_⟩
      obtain ⟨depth, rfl⟩ := Nat.exists_eq_succ_of_ne_zero (show depth ≠ 0 by omega)
      obtain ⟨own, hmake⟩ := @makeComponent_made σ P cfg name org id depth hmade horg
      obtain ⟨what, hwhat⟩ := hd depth (by omega) 0
      refine ⟨what, ?_⟩
      rw [hmake, if_pos (show org.count ≠ 0 by omega), connectChildren_first hwhat (by omega)]
      rfl

/-- **The tree is the one described** where the last count is not
negative. -/
theorem described_iff (h : Walk P cfg name (.leaf count)) (hshape : Shape cfg name id node) :
    Described cfg name id node ↔ 0 ≤ count := by
  generalize he : End.leaf count = e at h
  induction h generalizing id node with
  | unknown | refused => cases he
  | @leaf name org hmade horg hcount =>
      obtain rfl := End.leaf.inj he
      cases hshape with
      | @mk _ _ _ org' hname hid horg' hlen hregistered hchildren =>
          obtain rfl := Except.ok.inj (horg'.symm.trans horg)
          constructor
          · intro hdescribed
            cases hdescribed with
            | mk _ _ horg'' hcount' =>
                obtain rfl := Except.ok.inj (horg''.symm.trans horg')
                omega
          · intro hge
            refine .mk hname hid horg' (by omega) hregistered fun i hi => ?_
            omega
  | @down name org e hmade horg hcount _ ih =>
      cases hshape with
      | @mk _ _ _ org' hname hid horg' hlen hregistered hchildren =>
          obtain rfl := Except.ok.inj (horg'.symm.trans horg)
          constructor
          · intro hdescribed
            cases hdescribed with
            | @mk _ _ _ org'' _ _ horg'' hcount' _ hchildren' =>
                obtain rfl := Except.ok.inj (horg''.symm.trans horg')
                exact (ih (hchildren 0 (by omega)) he).mp (hchildren' 0 (by omega))
          · intro hge
            refine .mk hname hid horg' (by omega) hregistered fun i hi => ?_
            exact (ih (hchildren i hi) he).mpr hge

/-- **The factory is right** exactly where no name it does not handle is
walked to, and no negative count that nothing is refused at. The
organization is any whose description below `rmc` is acyclic; the depth
of the recursion is what the description needs. -/
theorem factory_right_iff (hacc : Acc (ChildOf cfg) Kind.rmc.name) :
    ∃ d, ∀ depth, d ≤ depth → (BuildsOrThrows cfg (make P depth cfg) ↔ Handled P cfg) := by
  obtain ⟨e, hwalk⟩ := @exists_walk σ P _ _ hacc
  cases e with
  | unknown =>
      obtain ⟨d, hd⟩ := makeComponent_null hwalk
      refine ⟨d, fun depth hdepth => iff_of_false ?_ fun h => h.1 hwalk⟩
      rw [make, hd depth hdepth]
      rintro (⟨what, h⟩ | ⟨node, h, -⟩) <;> cases h
  | refused =>
      obtain ⟨d, hd⟩ := makeComponent_throws hwalk
      refine ⟨d, fun depth hdepth => iff_of_true (.inl (hd depth hdepth 0)) ⟨fun h => ?_, ?_⟩⟩
      · cases hwalk.unique h
      · intro count _ h
        cases hwalk.unique h
  | leaf count =>
      obtain ⟨d, hd⟩ := makeComponent_leaf hwalk
      refine ⟨d, fun depth hdepth => ?_⟩
      have hunknown : ¬ Walk P cfg Kind.rmc.name .unknown := by
        intro h
        cases hwalk.unique h
      rcases hd depth hdepth 0 with ⟨hfails, what, hthrown⟩ | ⟨hfails, node, hok, hshape⟩
      · exact iff_of_true (.inl ⟨what, hthrown⟩) ⟨hunknown, fun _ _ _ => hfails⟩
      · have hright : BuildsOrThrows cfg (make P depth cfg) ↔ 0 ≤ count := by
          rw [← described_iff hwalk hshape, make, hok]
          constructor
          · rintro (⟨what, h⟩ | ⟨node', h, hdescribed⟩)
            · cases h
            · exact Except.ok.inj h ▸ hdescribed
          · exact fun h => .inr ⟨node, rfl, h⟩
        rw [hright]
        constructor
        · intro hge
          refine ⟨hunknown, fun count' hneg h => ?_⟩
          obtain rfl := End.leaf.inj (hwalk.unique h)
          omega
        · rintro ⟨-, hneg⟩
          by_contra hlt
          exact hfails (hneg count (by omega) hwalk)

end Tree

/-! ### Two descriptions -/

/-- Constructors that succeed, and a file system that agrees. -/
def willing : Parts Unit where
  construct := fun _ _ => pure ()
  openDump := fun _ _ => pure ()

/-- The configuration a text is read as. -/
def ofText (text : String) : RootConfig :=
  match RootConfig.read text.toList with
  | .ok cfg => cfg
  | .error _ => {}

section Descriptions

variable {cfg : RootConfig} {name : Text} {org : RootConfig.Organization}

theorem willing_made (hkind : (kindOf name).isSome) (hsection : (cfg.cfg.lookup name).isSome) :
    Made willing cfg name := by
  obtain ⟨kind, hkind⟩ := Option.isSome_iff_exists.mp hkind
  obtain ⟨config, hconfig⟩ := Option.isSome_iff_exists.mp hsection
  exact ⟨kind, config, (), hkind, by rw [RootConfig.atKey, hconfig]; rfl, rfl⟩

/-- A description is acyclic where its children's are. -/
theorem acc_of_child (horg : cfg.getOrganization name = .ok org)
    (hchild : 0 < org.count → Acc (ChildOf cfg) org.type) : Acc (ChildOf cfg) name := by
  refine Acc.intro name ?_
  rintro child ⟨org', horg', hcount, rfl⟩
  obtain rfl := Except.ok.inj (horg.symm.trans horg')
  exact hchild hcount

/-- A root with one controller. -/
def oneImc : RootConfig := ofText "[organization]\nrmc : 1 * imc\nimc : 0 * none\n[rmc]\n[imc]\n"

/-- The root, and the controller below it. -/
def oneImcTree : Node Unit :=
  ⟨Kind.rmc.name, 0, (), none, [⟨Kind.imc.name, 0, (), none, [], []⟩], [0]⟩

theorem oneImc_read : (oneImc.cfg.lookup Kind.rmc.name).isSome ∧
    (oneImc.cfg.lookup Kind.imc.name).isSome ∧
    oneImc.getOrganization Kind.rmc.name = .ok ⟨1, Kind.imc.name⟩ ∧
    oneImc.getOrganization Kind.imc.name = .ok ⟨0, "none".toList⟩ := by decide +kernel

theorem oneImc_rmc : Made willing oneImc Kind.rmc.name ∧
    oneImc.getOrganization Kind.rmc.name = .ok ⟨1, Kind.imc.name⟩ :=
  ⟨willing_made (by decide) oneImc_read.1, oneImc_read.2.2.1⟩

theorem oneImc_imc : Made willing oneImc Kind.imc.name ∧
    oneImc.getOrganization Kind.imc.name = .ok ⟨0, "none".toList⟩ :=
  ⟨willing_made (by decide) oneImc_read.2.1, oneImc_read.2.2.2⟩

theorem oneImc_made {depth : ℕ} : make willing (depth + 2) oneImc = .ok oneImcTree := by
  have hchild : makeComponent willing oneImc (depth + 1) Kind.imc.name 0 =
      .ok ⟨Kind.imc.name, 0, (), none, [], []⟩ := by
    obtain ⟨own, h⟩ := makeComponent_made oneImc_imc.1 oneImc_imc.2
    exact h
  have hconnected : connectChildren (makeComponent willing oneImc (depth + 1) Kind.imc.name) 1
      ⟨Kind.rmc.name, 0, (), none, [], []⟩ = .ok oneImcTree := by
    simp only [connectChildren, List.range_one, List.foldlM_cons, List.foldlM_nil, hchild, ok_bind]
    rfl
  obtain ⟨own, h⟩ := makeComponent_made oneImc_rmc.1 oneImc_rmc.2
  rw [make, h, if_pos (by decide)]
  change connectChildren (makeComponent willing oneImc (depth + 1) Kind.imc.name) 1
    ⟨Kind.rmc.name, 0, (), none, [], []⟩ >>= _ = _
  rw [hconnected]
  rfl

/-- **It is built as described**: a root with one controller. -/
theorem factory_right_iff_oneImc : ∃ d, ∀ depth, d ≤ depth →
    make willing depth oneImc = .ok oneImcTree ∧
      Described oneImc Kind.rmc.name 0 oneImcTree := by
  obtain ⟨hrmc, hone⟩ := oneImc_rmc
  obtain ⟨himc, hzero⟩ := oneImc_imc
  have hwalk : Walk willing oneImc Kind.rmc.name (.leaf 0) :=
    .down hrmc hone (by decide) (.leaf himc hzero (by decide))
  have hacc : Acc (ChildOf oneImc) Kind.rmc.name :=
    acc_of_child hone fun _ => acc_of_child hzero fun h => absurd h (by decide)
  obtain ⟨d, hd⟩ := @factory_right_iff Unit willing oneImc hacc
  refine ⟨d + 2, fun depth hdepth => ?_⟩
  obtain ⟨n, rfl⟩ : ∃ n, depth = n + 2 := ⟨depth - 2, by omega⟩
  have hright : BuildsOrThrows oneImc (make willing (n + 2) oneImc) := by
    refine (hd (n + 2) (by omega)).mpr ⟨fun h => ?_, fun count hneg h => ?_⟩
    · cases hwalk.unique h
    · obtain rfl := End.leaf.inj (hwalk.unique h)
      omega
  rw [oneImc_made] at hright
  refine ⟨oneImc_made, ?_⟩
  rcases hright with ⟨what, h⟩ | ⟨node, h, hdescribed⟩
  · cases h
  · exact Except.ok.inj h ▸ hdescribed

/-- The organization of the CXL test, with the sections walked to. -/
def cxlTest : RootConfig :=
  ofText ("[organization]\nrmc : 1 * cxl_system\ncxl_system : 1 * nvram\nnvram : 0 * none\n" ++
    "[rmc]\n[cxl_system]\n[nvram]\n")

/-- **The null component of the CXL test**: its organization is acyclic,
`nvram` is no name the dispatch handles, and the component is null where
its number is assigned. -/
theorem cxlTest_null : Acc (ChildOf cxlTest) Kind.rmc.name ∧
    ∃ d, ∀ depth, d ≤ depth → make willing depth cxlTest = .error .nullDereference ∧
      ¬ BuildsOrThrows cxlTest (make willing depth cxlTest) := by
  obtain ⟨hlookup, hlookup', hrmc, hcxl, hnvram⟩ :
      (cxlTest.cfg.lookup Kind.rmc.name).isSome ∧ (cxlTest.cfg.lookup Kind.cxlSystem.name).isSome ∧
      cxlTest.getOrganization Kind.rmc.name = .ok ⟨1, Kind.cxlSystem.name⟩ ∧
      cxlTest.getOrganization Kind.cxlSystem.name = .ok ⟨1, "nvram".toList⟩ ∧
      cxlTest.getOrganization "nvram".toList = .ok ⟨0, "none".toList⟩ := by decide +kernel
  have hwalk : Walk willing cxlTest Kind.rmc.name .unknown :=
    .down (willing_made (by decide) hlookup) hrmc (by decide)
      (.down (willing_made (by decide) hlookup') hcxl (by decide) (.unknown (by decide)))
  refine ⟨acc_of_child hrmc fun _ => acc_of_child hcxl fun _ => acc_of_child hnvram fun h =>
    absurd h (by decide), ?_⟩
  obtain ⟨d, hd⟩ := makeComponent_null hwalk
  refine ⟨d, fun depth hdepth => ⟨hd depth hdepth 0, ?_⟩⟩
  rw [make, hd depth hdepth 0]
  rintro (⟨what, h⟩ | ⟨node, h, -⟩) <;> cases h

end Descriptions

end Factory

end Vans
