import Parvar.Proofs.Resolve.Lexical
import Parvar.Proofs.Typing.Finishing

/-!
Expressions all of whose nodes stand at one place. Typing such an expression, a node is left alone from
the time it has been typed: what is typed after it is not part of it, and names no longer change.
-/

namespace Parvar

open Model Typing

-- A type of single values or of arrays with one index. Its base may be left open.
structure TypeInst.IsFlat (x : TypeInst) : Prop where
  not_bot : x.ty.base ≠ .bot
  flat : x.ty.Flat
  ranges : x.ranges.length ≤ 1

-- Neither an anonymous variable nor a literal without elements.
def ExprKind.isFilled : ExprKind → Bool
  | .anon | .setLit [] | .arrayLit [] _ => false
  | _ => true

section Deciding

instance (t : Ty) : Decidable t.Concrete := decidable_of_iff (t.base ≠ .bot ∧ t.base ≠ .unknown)
  ⟨fun h => ⟨h.1, h.2⟩, fun h => ⟨h.not_bot, h.known⟩⟩

instance (t : Ty) : Decidable t.Flat := inferInstanceAs (Decidable (_ ∨ _ ∨ _))

instance (x : TypeInst) : Decidable x.IsFlat := decidable_of_iff (x.ty.base ≠ .bot ∧ x.ty.Flat ∧ x.ranges.length ≤ 1)
  ⟨fun h => ⟨h.1, h.2.1, h.2.2⟩, fun h => ⟨h.not_bot, h.flat, h.ranges⟩⟩

end Deciding

namespace Model

section Trees

-- Every node below the root stands at one place.
structure Tree (m : Model) (root : Site) : Prop where
  present : ∀ {s}, m.Contains root s → m.Present s
  top : ∀ {p}, m.Contains root p → root ∉ m.parts p
  once : ∀ {p}, m.Contains root p → (m.parts p).Nodup
  parent : ∀ {p q c}, m.Contains root p → m.Contains root q → c ∈ m.parts p → c ∈ m.parts q → p = q

-- Nothing is in both.
def Separate (m : Model) (a b : Site) : Prop := ∀ x, m.Contains a x → ¬m.Contains b x

variable {m : Model} {root a b c n p q s : Site}

theorem Contains.part (hp : m.Contains s p) (hc : c ∈ m.parts p) : m.Contains s c := Relation.ReflTransGen.tail hp hc

-- A way below the root does not leave what is below the root.
theorem Contains.inside (h : m.Contains a b) (ha : m.Contains root a) :
    Relation.ReflTransGen (fun p c => m.Contains root p ∧ c ∈ m.parts p) a b := by
  induction h with
  | refl => exact .refl
  | tail hab hbc ih => exact .tail ih ⟨ha.trans hab, hbc⟩

namespace Tree

variable (h : m.Tree root)

include h

theorem forest : Forest fun p c => m.Contains root p ∧ c ∈ m.parts p where
  unique hp hq := h.parent hp.1 hq.1 hp.2 hq.2
  top hp := ⟨root, fun _ hq => h.top hq.1 hq.2, hp.1.inside .refl⟩

theorem not_contains_of_mem (hp : m.Contains root p) (hc : c ∈ m.parts p) : ¬m.Contains c p := fun hcp =>
  h.forest.not_above ⟨hp, hc⟩ (hcp.inside (hp.part hc))

theorem separate (hp : m.Contains root p) (ha : a ∈ m.parts p) (hb : b ∈ m.parts p) (hne : a ≠ b) : m.Separate a b :=
  fun _ hax hbx => h.forest.disjoint ⟨hp, ha⟩ ⟨hp, hb⟩ hne (hax.inside (hp.part ha)) (hbx.inside (hp.part hb))

end Tree

-- Where finitely many nodes are all that is reached, it is enough that no node is met twice.
theorem Tree.of_nodup (sites : List Site) (hr : root ∈ sites) (hc : ∀ s ∈ sites, m.parts s ⊆ sites)
    (hp : ∀ s ∈ sites, m.Present s) (hn : (root :: sites.flatMap m.parts).Nodup) : m.Tree root := by
  have hreach : ∀ {s}, m.Contains root s → s ∈ sites := fun h => h.mem_of_closed hr hc
  obtain ⟨hroot, hparts⟩ := List.nodup_cons.mp hn
  obtain ⟨hone, hpair⟩ := List.nodup_flatMap.mp hparts
  refine ⟨fun hs => hp _ (hreach hs), fun hs hmem => ?_, fun hs => hone _ (hreach hs), ?_⟩
  · exact hroot (List.mem_flatMap.mpr ⟨_, hreach hs, hmem⟩)
  · intro p q c hps hqs hcp hcq
    by_contra hne
    have : Std.Symm (Function.onFun List.Disjoint m.parts) := ⟨fun _ _ h => List.Disjoint.symm h⟩
    exact hpair.forall (hreach hps) (hreach hqs) hne hcp hcq

end Trees

section Definitions

variable (m : Model)

-- The name of a generator in a comprehension below the node.
def RangesIn (s : Site) (d : DeclId) : Prop :=
  ∃ e c g, m.Contains s (.expr e) ∧ m.kind e = .comp c ∧ g ∈ c.generators ∧ d ∈ g.decls

-- A declaration of values or of arrays with one index, or an expression that is not empty and has a type if it is a
-- literal.
def ProperAt : Site → Prop
  | .expr e => ((m.kind e).isConstant → (m.ty e).Concrete) ∧ (m.kind e).isFilled
  | .decl d => (m.typeInst (m.decl d).ti).IsFlat
  | .typeInst _ => True

instance : DecidablePred m.ProperAt
  | .expr _ => inferInstanceAs (Decidable ((_ → _) ∧ _))
  | .decl d => inferInstanceAs (Decidable (m.typeInst (m.decl d).ti).IsFlat)
  | .typeInst _ => inferInstanceAs (Decidable True)

-- Coercions are those of the library, and functions, names and what is below the root are of types that values have.
structure Proper (root : Site) : Prop where
  promotes : m.Promotes
  regular : m.Regular
  declared : ∀ d, (m.decl d).ty.base ≠ .bot
  node : ∀ {s}, m.Contains root s → m.ProperAt s

-- The nodes stand at one place, in no head of a function, and the names of generators are used where they are visible.
structure Checkable (root : Site) : Prop extends m.Proper root where
  tree : m.Tree root
  apart : ∀ {f}, m.Registered f → ¬m.Contains root (.typeInst (m.func f).ret) ∧
    ∀ p ∈ (m.func f).params, ¬m.Contains root (.decl p) ∧ ¬m.Contains root (.typeInst (m.decl p).ti)
  lexical : ∀ {x name d y c g}, m.Contains root (.expr x) → m.kind x = .ident name (some d) →
    m.Contains root (.expr y) → m.kind y = .comp c → g ∈ c.generators → d ∈ g.decls →
      ∃ s, (d, s) ∈ (ExprKind.comp c).scopes ∧ m.Contains s (.expr x)

variable (root : Site)

-- A model on the way: only nodes below the root have changed, names and comprehensions are what they were.
structure Ongoing (m₁ : Model) : Prop where
  alters : m.Alters (m.Contains root) m₁
  plain : ∀ x, (m₁.kind x).isPlain = false → m₁.kind x = m.kind x
  tis : ∀ d, (m₁.decl d).ti = (m.decl d).ti
  declared : ∀ d, (m₁.decl d).ty.base ≠ .bot

-- A node that has been typed, made of nodes below `o` and of new ones.
structure Done (n : Nat) (o c : Site) (m₁ : Model) : Prop where
  checked : m₁.Checked n c
  reach : ∀ {x}, m₁.Uses c x → m₁.Present x ∧ (m.Contains o x ∨ ¬m.Present x)

-- A node with the type that was found for it.
structure Visited (n : Nat) (c : Site) (m₁ : Model) : Prop extends m.Done n c c m₁ where
  typed : ∀ {e}, c = .expr e → (m₁.ty e).Concrete ∧ (m₁.kind e).isAnon = false
  flat : ∀ {t}, c = .typeInst t → (m.typeInst t).IsFlat → (m₁.typeInst t).IsFlat

end Definitions

section Scopes

variable {m : Model} {root a b s : Site} {d : DeclId} {x : ExprId}

theorem decl_mem_parts {c : Comprehension} {g : Generator} (hg : g ∈ c.generators) (hd : d ∈ g.decls) :
    .decl d ∈ (ExprKind.comp c).parts Generator.parts := by
  refine List.mem_append_left _ (List.mem_append_left _ (List.mem_flatMap.mpr ⟨g, hg, ?_⟩))
  exact List.mem_cons_of_mem _ (List.mem_map_of_mem hd)

theorem RangesIn.contains (h : m.RangesIn s d) : m.Contains s (.decl d) := by
  obtain ⟨e, c, g, he, hk, hg, hd⟩ := h
  refine he.part (List.mem_append_left _ ?_)
  rw [hk]
  exact decl_mem_parts hg hd

theorem RangesIn.mono (h : m.RangesIn b d) (ha : m.Contains a b) : m.RangesIn a d := by
  obtain ⟨e, c, g, he, h⟩ := h
  exact ⟨e, c, g, ha.trans he, h⟩

theorem mem_scopes {rest : List Site} {gs : List Generator} (h : (d, s) ∈ Generator.scopes rest gs) :
    s ∈ gs.flatMap Generator.uses ++ rest := by
  induction gs with
  | nil => cases h
  | cons g gs ih =>
    rw [Generator.scopes, List.mem_append, List.pair_mem_product] at h
    rw [List.flatMap_cons, List.append_assoc]
    exact List.mem_append_right _ (h.elim And.right ih)

theorem scopes_subset {c : Comprehension} (h : (d, s) ∈ (ExprKind.comp c).scopes) :
    s ∈ (ExprKind.comp c).parts Generator.uses := by
  have h := mem_scopes h
  rwa [← List.append_assoc] at h

-- A name is not one of a generator in a part of the expression that it does not stand in.
theorem Checkable.not_rangesIn {name : String} (h : m.Checkable root) (hx : m.Contains root (.expr x))
    (hs : m.Contains root s) (hn : ¬m.Contains s (.expr x)) (hk : m.kind x = .ident name (some d)) : ¬m.RangesIn s d := by
  rintro ⟨e, c, g, he, hc, hg, hd⟩
  obtain ⟨b, hscope, hbx⟩ := h.lexical hx hk (hs.trans he) hc hg hd
  have hb : b ∈ m.parts (.expr e) := by
    refine List.mem_append_left _ ?_
    rw [hc]
    exact ExprKind.parts_subset _ (scopes_subset hscope)
  exact hn ((he.part hb).trans hbx)

end Scopes

section Keeping

variable {m m₁ m₂ : Model} {root o c s : Site} {n : Nat} {P : Site → Prop}

theorem Alters.heads {m' : Model} (h : m.Alters P m') (hP : ∀ {f}, m.Registered f → ¬P (.typeInst (m.func f).ret) ∧
    ∀ p ∈ (m.func f).params, ¬P (.decl p) ∧ ¬P (.typeInst (m.decl p).ti)) : m.SameHeads m' := by
  have hvar : ∀ {t}, ¬P (.typeInst t) → m'.typeVar? t = m.typeVar? t := fun ht => Option.ext fun v => by
    rw [typeVar_eq_some, typeVar_eq_some, h.typeInst_eq ht]
    exact exists_congr fun e => and_congr_right fun _ => h.typeVar e v
  refine ⟨h.overloads, h.funcs, fun f hf p hp => ?_, fun f hf => ?_⟩
  · obtain ⟨hd, ht⟩ := (hP hf).2 p hp
    rw [paramTy, paramTy, h.decl_eq hd, h.typeInst_eq ht]
    exact ⟨rfl, hvar ht⟩
  · rw [h.typeInst_eq (hP hf).1]
    exact ⟨rfl, hvar (hP hf).1⟩

theorem Ongoing.heads (h : m.Ongoing root m₁) (hm : m.Checkable root) : m.SameHeads m₁ := h.alters.heads hm.apart

theorem Agrees.union {F : Site → Site → Prop} {cs : List Site} (hh : m₁.SameHeads m₂)
    (ht : m₂.typeInsts.size = m₁.typeInsts.size) (h : ∀ c ∈ cs, m₁.Agrees (F c) m₂) :
    m₁.Agrees (fun s => ∃ c ∈ cs, F c s) m₂ := by
  constructor
  case heads => exact hh
  case typeInsts => exact ht
  case same =>
    rintro s ⟨c, hc, hs⟩
    exact (h c hc).same hs
  case closed =>
    rintro s x ⟨c, hc, hs⟩ hx
    exact ⟨c, hc, (h c hc).closed hs hx⟩
  case ranged =>
    rintro e k g d ⟨c, hc, hs⟩
    exact (h c hc).ranged hs
  case named =>
    rintro e name d ⟨c, hc, hs⟩
    exact (h c hc).named hs

theorem Agrees.uses {F : Site → Prop} {x : Site} (h : m₁.Agrees F m₂) (hF : F s) (hx : m₂.Uses s x) :
    F x ∧ m₁.Uses s x := by
  induction hx with
  | refl => exact ⟨hF, .refl⟩
  | tail _ hc ih =>
    rw [(h.same ih.1).uses_eq] at hc
    exact ⟨h.closed ih.1 hc, ih.2.tail hc⟩

theorem Checked.of_uses {x : Site} (h : m₁.Checked n c) (hx : m₁.Uses c x) : m₁.Settled x := by
  induction n generalizing c with
  | zero => exact h.elim
  | succ n ih =>
    rcases Relation.ReflTransGen.cases_head hx with rfl | ⟨b, hb, hx⟩
    · exact h.1
    · exact ih (h.2.2 b hb) hx

section Alteration

variable (hm : m.Checkable root) (h₁ : m.Ongoing root m₁) (h₂ : m.Ongoing root m₂) (ha : m₁.Alters P m₂)
  (hP : ∀ {x}, P x → m.Present x ∧ ¬m.Contains o x)
  (hnamed : ∀ {y name d}, m.Contains o (.expr y) → m.kind y = .ident name (some d) → (m₁.decl d).ty.Known →
    (m₂.decl d).ty = (m₁.decl d).ty)

include hm h₁ h₂ ha hP hnamed

-- What has been typed stays as it is while other parts are typed.
theorem Done.agrees (hd : m.Done n o c m₁) : m₁.Agrees (m₁.Uses c) m₂ := by
  -- A name or a comprehension is not new.
  have hold : ∀ {e}, m₁.Uses c (.expr e) → (m₁.kind e).isPlain = false →
      m₁.kind e = m.kind e ∧ m.Contains o (.expr e) := by
    intro e he hk
    have hke := h₁.plain e hk
    refine ⟨hke, (hd.reach he).2.resolve_right (not_not_intro ?_)⟩
    exact Model.lt_of_kind_ne_anon fun hanon => by rw [hke, hanon] at hk; cases hk
  exact {
    same := fun {x} hx => ha.same (hd.reach hx).1 fun hp => (hd.reach hx).2.elim (hP hp).2 (not_not_intro (hP hp).1)
    closed := fun hs hc => hs.tail hc
    ranged := by
      intro e k g d he hk hg hdg
      obtain ⟨hke, hoe⟩ := hold he (by rw [hk]; rfl)
      have hod : m.Contains o (.decl d) := hoe.trans (RangesIn.contains ⟨e, k, g, .refl, hke ▸ hk, hg, hdg⟩)
      refine ⟨ha.decl_eq fun hp => (hP hp).2 hod, ha.typeInst_eq fun hp => (hP hp).2 ?_⟩
      rw [h₁.tis]
      exact hod.part List.mem_cons_self
    named := by
      intro e name d he hk
      obtain ⟨hke, hoe⟩ := hold he (by rw [hk]; rfl)
      have hset : m₁.SettledAs e (m₁.kind e) := hd.checked.of_uses he
      rw [hk] at hset
      exact hnamed hoe (hke ▸ hk) hset.1
    heads := (h₁.heads hm).symm.trans (h₂.heads hm)
    typeInsts := ha.typeInsts }

theorem Done.alters (hd : m.Done n o c m₁) : m.Done n o c m₂ := by
  have hagree := hd.agrees hm h₁ h₂ ha hP hnamed
  refine ⟨hagree.checked .refl hd.checked, fun {x} hx => ?_⟩
  obtain ⟨hF, -⟩ := hagree.uses .refl hx
  exact ⟨ha.present (hd.reach hF).1, (hd.reach hF).2⟩

theorem Visited.alters (hd : m.Visited n o m₁) : m.Visited n o m₂ := by
  have hsame := (hd.agrees hm h₁ h₂ ha hP hnamed).same .refl
  refine ⟨hd.toDone.alters hm h₁ h₂ ha hP hnamed, ?_, ?_⟩
  · rintro e rfl
    have he : m₂.expr e = m₁.expr e := hsame
    rw [ty, kind, he]
    exact hd.typed rfl
  · rintro t rfl
    have ht : m₂.typeInst t = m₁.typeInst t := hsame
    rw [ht]
    exact hd.flat rfl

end Alteration

end Keeping

end Model
end Parvar
