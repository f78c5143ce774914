import Mathlib
import Parvar.Model.Items

/-!
The places of the nodes in a model. Where every expression and every declaration has one place, the
nodes below the items of a model form a forest, and two nodes that stand side by side have nothing
below them in common.
-/

namespace Parvar

section Forests

open Relation

-- Nothing is part of two things, and going up from a part ends.
structure Forest {α : Type} (part : α → α → Prop) : Prop where
  unique : ∀ {p q c}, part p c → part q c → p = q
  top : ∀ {p c}, part p c → ∃ r, (∀ q, ¬part q r) ∧ ReflTransGen part r p

namespace Forest

variable {α : Type} {part : α → α → Prop} {a b c n p : α} (h : Forest part)

include h

-- The parent of a node is below all that the node is in.
theorem parent (hp : part p c) (ha : ReflTransGen part a c) : a = c ∨ ReflTransGen part a p := by
  rcases ReflTransGen.cases_tail ha with rfl | ⟨q, haq, hq⟩
  · exact .inl rfl
  · exact .inr (h.unique hq hp ▸ haq)

-- Two nodes with something in common lie one in the other.
theorem comparable (ha : ReflTransGen part a n) (hb : ReflTransGen part b n) :
    ReflTransGen part a b ∨ ReflTransGen part b a := by
  induction ha with
  | refl => exact .inr hb
  | tail hap hpn ih =>
    rcases h.parent hpn hb with rfl | hbp
    · exact .inl (.tail hap hpn)
    · exact ih hbp

-- Nothing is part of what stands in it.
theorem not_above (hp : part p c) : ¬ReflTransGen part c p := by
  obtain ⟨r, hr, hrp⟩ := h.top hp
  induction hrp generalizing c with
  | refl =>
    intro hc
    rcases ReflTransGen.cases_tail hc with rfl | ⟨q, -, hq⟩
    · exact hr _ hp
    · exact hr q hq
  | tail hrq hqp ih =>
    intro hc
    rcases h.parent hqp hc with rfl | hcq
    · obtain rfl := h.unique hp hqp
      exact ih hqp .refl
    · exact ih hqp (.head hp hcq)

theorem disjoint (ha : part p a) (hb : part p b) (hne : a ≠ b) (han : ReflTransGen part a n) :
    ¬ReflTransGen part b n := by
  intro hbn
  rcases h.comparable han hbn with hab | hba
  · exact (h.parent hb hab).elim hne (h.not_above ha)
  · exact (h.parent ha hba).elim hne.symm (h.not_above hb)

end Forest
end Forests

-- Type-insts are the only nodes that may be shared, as long as there is nothing else in them.
def Site.IsNode : Site → Prop
  | .expr _ | .decl _ => True
  | .typeInst _ => False

namespace Generator

def parts (g : Generator) : List Site := .expr g.source :: g.decls.map .decl

-- The names of a generator are left out.
def uses (g : Generator) : List Site := [.expr g.source]

theorem uses_subset (g : Generator) : g.uses ⊆ g.parts := by
  simp [uses, parts]

end Generator

namespace LetItem

def site : LetItem → Site
  | .decl d => .decl d
  | .constraint e => .expr e

def decls : LetItem → List DeclId
  | .decl d => [d]
  | .constraint _ => []

end LetItem

def ExprKind.name? : ExprKind → Option String
  | .ident name _ => some name
  | _ => none

def Item.decls : Item → List DeclId
  | .decl d => [d]
  | _ => []

-- What an expression is made of; of its generators only what `gen` says.
def ExprKind.parts (gen : Generator → List Site) : ExprKind → List Site
  | .setLit elems | .arrayLit elems _ | .call _ elems _ => elems.map .expr
  | .access array indices => (array :: indices).map .expr
  | .comp c => c.generators.flatMap gen ++ c.guard.toList.map .expr ++ [.expr c.body]
  | .ite branches otherwise =>
    branches.flatMap (fun b => [b.1, b.2].map .expr) ++ [.expr otherwise]
  | .bin _ lhs rhs _ => [lhs, rhs].map .expr
  | .un _ arg _ => [.expr arg]
  | .letIn l => l.items.map LetItem.site ++ [.expr l.body]
  | .int _ | .float _ | .bool _ | .string _ | .intSet _ | .absent | .anon | .ident _ _
  | .typeVar _ => []

theorem ExprKind.parts_subset (k : ExprKind) : k.parts Generator.uses ⊆ k.parts Generator.parts := by
  cases k
  case comp c =>
    intro s hs
    simp only [parts, List.mem_append, List.mem_flatMap] at hs ⊢
    exact hs.imp_left (·.imp_left fun ⟨g, hg, h⟩ => ⟨g, hg, g.uses_subset h⟩)
  all_goals exact List.Subset.refl _

namespace Model

section Definitions

variable (m : Model)

-- What comes before a declaration: its type-inst and its initializer.
def needs (d : DeclId) : List Site :=
  .typeInst (m.decl d).ti :: (m.decl d).init.toList.map .expr

def partsBy (gen : Generator → List Site) : Site → List Site
  | .expr e => (m.kind e).parts gen ++ (m.expr e).ann.map .expr
  | .decl d => m.needs d ++ (m.decl d).ann.map .expr
  | .typeInst t => (m.typeInst t).ranges.map .typeInst ++ (m.typeInst t).domain.toList.map .expr

def parts (s : Site) : List Site := m.partsBy Generator.parts s

def uses (s : Site) : List Site := m.partsBy Generator.uses s

-- The node is the same in both models.
def SameAt (m' : Model) : Site → Prop
  | .expr e => m'.expr e = m.expr e
  | .decl d => m'.decl d = m.decl d
  | .typeInst t => m'.typeInst t = m.typeInst t

-- `b` is `a`, or stands somewhere in it.
def Contains (a b : Site) : Prop := Relation.ReflTransGen (fun s c => c ∈ m.parts s) a b

-- The same, but not through the names of generators.
def Uses (a b : Site) : Prop := Relation.ReflTransGen (fun s c => c ∈ m.uses s) a b

def Holds (s : Site) : Prop := ∃ n, n.IsNode ∧ m.Contains s n

def Present : Site → Prop
  | .expr e => e.index < m.exprs.size
  | .decl d => d.index < m.decls.size
  | .typeInst t => t.index < m.typeInsts.size

instance : DecidablePred m.Present
  | .expr e => inferInstanceAs (Decidable (e.index < m.exprs.size))
  | .decl d => inferInstanceAs (Decidable (d.index < m.decls.size))
  | .typeInst t => inferInstanceAs (Decidable (t.index < m.typeInsts.size))

def Reached (roots : List Site) (s : Site) : Prop := ∃ r ∈ roots, m.Contains r s

def itemSites : Item → List Site
  | .decl d => [.decl d]
  | .constraint e | .output e => [.expr e]
  | .assign a => [.expr a.value]
  | .solve goal ann => ann.map .expr ++ goal.objective?.toList.map .expr
  | .func f =>
    .typeInst (m.func f).ret :: (m.func f).params.map .decl ++ (m.func f).ann.map .expr
      ++ (m.func f).body.toList.map .expr
  | .submodel _ => []

-- All but the declaration that is an item itself.
def itemRest : Item → List Site
  | .decl _ => []
  | item => m.itemSites item

-- The item at a path, unless it was removed.
def itemAt? (p : ItemPath) : Option Item :=
  (m.slot? p).bind fun s => if s.removed then none else some s.item

-- The nodes that stand directly in the items at the given paths.
def rootsAt (paths : List ItemPath) : List Site :=
  paths.flatMap fun p => (m.itemAt? p).toList.flatMap m.itemSites

-- No node is twice among the roots or in another node, nor in two places of different kind.
structure SinglePlace (roots : List Site) : Prop where
  present : ∀ {s}, m.Reached roots s → m.Present s
  root_once : roots.Pairwise fun a b => a = b → ¬m.Holds a
  root_top : ∀ {p c}, m.Reached roots p → c ∈ m.parts p → c ∈ roots → ¬m.Holds c
  once : ∀ {p}, m.Reached roots p → (m.parts p).Pairwise fun a b => a = b → ¬m.Holds a
  parent : ∀ {p q c}, m.Reached roots p → m.Reached roots q → c ∈ m.parts p → c ∈ m.parts q →
    m.Holds c → p = q

-- A part that is, or holds, a node with a place.
structure Part (roots : List Site) (p c : Site) : Prop where
  reached : m.Reached roots p
  mem : c ∈ m.parts p
  holds : m.Holds c

def Below (roots : List Site) : Site → Site → Prop := Relation.ReflTransGen (m.Part roots)

-- No node is in both.
def Apart (roots : List Site) (a b : Site) : Prop :=
  ∀ n, m.Below roots a n → m.Below roots b n → ¬n.IsNode

end Definitions

variable {m : Model} {roots : List Site} {a b c p q s n : Site} {d : DeclId}

section Parts

theorem parts_decl : m.parts (.decl d) = m.needs d ++ (m.decl d).ann.map .expr := rfl

theorem itemSites_eq (item : Item) : m.itemSites item = item.decls.map .decl ++ m.itemRest item := by
  cases item <;> rfl

theorem mem_rootsAt {paths : List ItemPath} {i : ItemPath} {item : Item} (hi : i ∈ paths)
    (hat : m.itemAt? i = some item) (hs : s ∈ m.itemSites item) : s ∈ m.rootsAt paths :=
  List.mem_flatMap.mpr ⟨i, hi, by simpa [hat] using hs⟩

theorem uses_decl : m.uses (.decl d) = m.needs d ++ (m.decl d).ann.map .expr := rfl

theorem uses_subset (m : Model) (s : Site) : m.uses s ⊆ m.parts s := by
  cases s
  case expr e =>
    refine List.append_subset.mpr ⟨?_, List.subset_append_right _ _⟩
    exact List.subset_append_of_subset_left _ (m.kind e).parts_subset
  all_goals exact List.Subset.refl _

theorem SameAt.partsBy_eq {m' : Model} (h : m.SameAt m' s) (gen : Generator → List Site) :
    m'.partsBy gen s = m.partsBy gen s := by
  cases s
  case expr e => simp [partsBy, kind, show m'.expr e = m.expr e from h]
  case decl d => simp [partsBy, needs, show m'.decl d = m.decl d from h]
  case typeInst t => simp [partsBy, show m'.typeInst t = m.typeInst t from h]

theorem SameAt.uses_eq {m' : Model} (h : m.SameAt m' s) : m'.uses s = m.uses s := h.partsBy_eq _

theorem SameAt.parts_eq {m' : Model} (h : m.SameAt m' s) : m'.parts s = m.parts s := h.partsBy_eq _

theorem Contains.mem_of_closed {sites : List Site} (h : m.Contains a s) (ha : a ∈ sites)
    (hc : ∀ s ∈ sites, m.parts s ⊆ sites) : s ∈ sites := by
  induction h with
  | refl => exact ha
  | tail _ hbc ih => exact hc _ ih hbc

theorem Uses.contains (h : m.Uses a b) : m.Contains a b :=
  Relation.ReflTransGen.mono (fun s _ hc => uses_subset m s hc) _ _ h

theorem Holds.of_isNode (h : s.IsNode) : m.Holds s := ⟨s, h, .refl⟩

theorem Holds.of_part (hc : c ∈ m.parts p) : m.Holds c → m.Holds p :=
  fun ⟨n, hn, h⟩ => ⟨n, hn, .head hc h⟩

end Parts

section Order

theorem Reached.root (h : s ∈ roots) : m.Reached roots s := ⟨s, h, .refl⟩

theorem Reached.part (hp : m.Reached roots p) (hc : c ∈ m.parts p) : m.Reached roots c :=
  have ⟨r, hr, h⟩ := hp
  ⟨r, hr, h.tail hc⟩

theorem Reached.contains (ha : m.Reached roots a) (h : m.Contains a b) : m.Reached roots b :=
  have ⟨r, hr, hra⟩ := ha
  ⟨r, hr, hra.trans h⟩

theorem Below.refl : m.Below roots a a := Relation.ReflTransGen.refl

theorem Part.below (h : m.Part roots a b) : m.Below roots a b := .single h

theorem Below.trans (h₁ : m.Below roots a b) (h₂ : m.Below roots b c) : m.Below roots a c :=
  Relation.ReflTransGen.trans h₁ h₂

theorem Below.contains (h : m.Below roots a b) : m.Contains a b :=
  Relation.ReflTransGen.mono (fun _ _ hc => hc.mem) _ _ h

theorem Below.holds (h : m.Below roots a b) (hb : m.Holds b) : m.Holds a :=
  have ⟨n, hn, hc⟩ := hb
  ⟨n, hn, h.contains.trans hc⟩

theorem Contains.below (ha : m.Reached roots a) (h : m.Contains a b) (hb : m.Holds b) :
    m.Below roots a b := by
  induction h with
  | refl => exact .refl
  | tail hab hbc ih =>
    exact .tail (ih (hb.of_part hbc)) ⟨ha.contains hab, hbc, hb⟩

-- What is below a node, but not the node itself, is below one of its parts.
theorem Below.cases_head (h : m.Below roots a b) : a = b ∨ ∃ c, m.Part roots a c ∧ m.Below roots c b :=
  Relation.ReflTransGen.cases_head h

theorem Below.cases_tail (h : m.Below roots a b) : a = b ∨ ∃ p, m.Below roots a p ∧ m.Part roots p b :=
  (Relation.ReflTransGen.cases_tail h).imp_left Eq.symm

instance : Std.Symm (m.Apart roots) := ⟨fun _ _ h n hb ha => h n ha hb⟩

end Order

namespace SinglePlace

variable (h : m.SinglePlace roots)

include h

theorem part_unique (hp : m.Part roots p c) (hq : m.Part roots q c) : p = q :=
  h.parent hp.reached hq.reached hp.mem hq.mem hp.holds

theorem not_part_root (hr : c ∈ roots) : ¬m.Part roots p c :=
  fun hp => h.root_top hp.reached hp.mem hr hp.holds

theorem forest : Forest (m.Part roots) where
  unique := h.part_unique
  top hp := by
    obtain ⟨r, hr, hrp⟩ := hp.reached
    exact ⟨r, fun _ => h.not_part_root hr, hrp.below (.root hr) (hp.holds.of_part hp.mem)⟩

theorem below_parent (hp : m.Part roots p c) (ha : m.Below roots a c) : a = c ∨ m.Below roots a p :=
  h.forest.parent hp ha

theorem comparable (ha : m.Below roots a n) (hb : m.Below roots b n) : m.Below roots a b ∨ m.Below roots b a :=
  h.forest.comparable ha hb

theorem not_below_part (hp : m.Part roots p c) : ¬m.Below roots c p := h.forest.not_above hp

theorem apart_of_mem (hp : m.Reached roots p) (ha : a ∈ m.parts p) (hb : b ∈ m.parts p)
    (hne : a = b → ¬m.Holds a) : m.Apart roots a b := by
  intro n han hbn hn
  have pa : m.Part roots p a := ⟨hp, ha, han.holds (.of_isNode hn)⟩
  have pb : m.Part roots p b := ⟨hp, hb, hbn.holds (.of_isNode hn)⟩
  exact h.forest.disjoint pa pb (fun e => hne e pa.holds) han hbn

theorem pairwise_parts (hp : m.Reached roots p) : (m.parts p).Pairwise (m.Apart roots) :=
  (h.once hp).imp_of_mem fun ha hb hne => h.apart_of_mem hp ha hb hne

theorem eq_of_below_root (hb : b ∈ roots) (hab : m.Below roots a b) : a = b :=
  hab.cases_tail.resolve_right fun ⟨_, _, hp⟩ => h.not_part_root hb hp

theorem pairwise_roots : roots.Pairwise (m.Apart roots) := by
  refine h.root_once.imp_of_mem fun ha hb hne n han hbn hn => ?_
  have heq : _ ≠ _ := fun e => hne e (han.holds (.of_isNode hn))
  cases h.comparable han hbn
  case inl hab => exact heq (h.eq_of_below_root hb hab)
  case inr hba => exact heq (h.eq_of_below_root ha hba).symm

variable {m' : Model}

-- What is not below a root does not matter.
theorem congr (hp : ∀ {s}, m.Reached roots s → m'.parts s = m.parts s)
    (hm : ∀ {s}, m.Reached roots s → m'.Present s) : m'.SinglePlace roots := by
  have hc : ∀ {a b}, m.Reached roots a → m'.Contains a b → m.Contains a b := by
    intro a b ha hab
    induction hab with
    | refl => exact .refl
    | tail _ hbc ih => exact .tail ih (hp (ha.contains ih) ▸ hbc)
  have hr : ∀ {s}, m'.Reached roots s → m.Reached roots s :=
    fun ⟨r, hr, h⟩ => ⟨r, hr, hc (.root hr) h⟩
  have hh : ∀ {s}, m.Reached roots s → m'.Holds s → m.Holds s :=
    fun hs ⟨n, hn, h⟩ => ⟨n, hn, hc hs h⟩
  refine ⟨fun hs => hm (hr hs), ?_, ?_, ?_, ?_⟩
  · exact h.root_once.imp_of_mem fun ha _ hne e hs => hne e (hh (.root ha) hs)
  · intro p c hr' hpc hcr hs
    exact h.root_top (hr hr') (hp (hr hr') ▸ hpc) hcr (hh (.root hcr) hs)
  · intro p hr'
    rw [hp (hr hr')]
    exact (h.once (hr hr')).imp_of_mem fun ha _ hne e hs => hne e (hh ((hr hr').part ha) hs)
  · intro p q c hrp hrq hpc hqc hs
    rw [hp (hr hrp)] at hpc
    rw [hp (hr hrq)] at hqc
    exact h.parent (hr hrp) (hr hrq) hpc hqc (hh ((hr hrp).part hpc) hs)

end SinglePlace

namespace SinglePlace

variable {m' : Model} {v : ExprId} {as bs : List Site}

-- A root that becomes part of a declaration still has one place.
theorem move (h : m.SinglePlace (as ++ .expr v :: bs))
    (hp : ∀ {s}, s ≠ .decl d → m'.parts s = m.parts s)
    (hpd : (m'.parts (.decl d)).Perm (.expr v :: m.parts (.decl d)))
    (hm : ∀ {s}, m.Present s → m'.Present s) : m'.SinglePlace (as ++ bs) := by
  have hsub : ∀ {s}, s ∈ as ++ bs → s ∈ as ++ .expr v :: bs := fun hs =>
    List.mem_append.mpr ((List.mem_append.mp hs).imp_right (List.mem_cons_of_mem _))
  have hv : Site.expr v ∈ as ++ .expr v :: bs := by simp
  have hparts : ∀ {p c}, c ∈ m'.parts p → c ∈ m.parts p ∨ p = .decl d ∧ c = .expr v := by
    intro p c hc
    by_cases hpd' : p = .decl d
    · subst hpd'
      exact (List.mem_cons.mp (hpd.mem_iff.mp hc)).symm.imp_right (⟨rfl, ·⟩)
    · exact .inl (hp hpd' ▸ hc)
  -- A way to a node is an old one, or it comes to the declaration and goes on from the new part.
  have hc : ∀ {a b}, m'.Contains a b →
      m.Contains a b ∨ m.Contains a (.decl d) ∧ m.Contains (.expr v) b := by
    intro a b hab
    induction hab with
    | refl => exact .inl .refl
    | tail _ hbc ih =>
      cases hparts hbc
      case inl hbc => exact ih.imp (·.tail hbc) (.imp_right (·.tail hbc))
      case inr e =>
        obtain ⟨rfl, rfl⟩ := e
        exact .inr ⟨ih.elim id (·.1), .refl⟩
  have hh : ∀ {s}, m'.Holds s → m.Holds s := fun ⟨n, hn, hs⟩ =>
    (hc hs).elim (⟨n, hn, ·⟩) fun h => ⟨.decl d, trivial, h.1⟩
  have hr : ∀ {s}, m'.Reached (as ++ bs) s → m.Reached (as ++ .expr v :: bs) s :=
    fun ⟨r, hr, hs⟩ => (hc hs).elim (⟨r, hsub hr, ·⟩) fun h => ⟨_, hv, h.2⟩
  have hvr : ∀ {p}, m'.Reached (as ++ bs) p → .expr v ∉ m.parts p := fun hp' hvp =>
    h.root_top (hr hp') hvp hv (.of_isNode trivial)
  refine ⟨fun hs => hm (h.present (hr hs)), ?_, ?_, ?_, ?_⟩
  · refine (h.root_once.sublist ?_).imp fun hne e hs => hne e (hh hs)
    exact List.Sublist.append_left (List.sublist_cons_self _ _) _
  · intro p c hp' hpc hcr hs
    cases hparts hpc
    case inl hpc => exact h.root_top (hr hp') hpc (hsub hcr) (hh hs)
    case inr e =>
      have ⟨_, hb, hab⟩ := List.pairwise_append.mp h.root_once
      rw [e.2] at hcr hs
      cases List.mem_append.mp hcr
      case inl hva => exact hab _ hva _ List.mem_cons_self rfl (hh hs)
      case inr hvb => exact (List.pairwise_cons.mp hb).1 _ hvb rfl (hh hs)
  · intro p hp'
    by_cases hpd' : p = .decl d
    · subst hpd'
      have hsymm : ∀ {a b : Site}, (a = b → ¬m'.Holds a) → b = a → ¬m'.Holds b :=
        fun hne e hs => hne e.symm (e ▸ hs)
      refine (hpd.pairwise_iff hsymm).mpr (List.pairwise_cons.mpr ⟨?_, ?_⟩)
      · rintro c hc rfl
        exact (hvr hp' hc).elim
      · exact (h.once (hr hp')).imp fun hne e hs => hne e (hh hs)
    · rw [hp hpd']
      exact (h.once (hr hp')).imp fun hne e hs => hne e (hh hs)
  · intro p q c hp' hq' hpc hqc hs
    cases hparts hpc
    case inl hpc =>
      cases hparts hqc
      case inl hqc => exact h.parent (hr hp') (hr hq') hpc hqc (hh hs)
      case inr e => exact (hvr hp' (e.2 ▸ hpc)).elim
    case inr e =>
      cases hparts hqc
      case inl hqc => exact (hvr hq' (e.2 ▸ hqc)).elim
      case inr e' => exact e.1.trans e'.1.symm

-- Where finitely many nodes are all that is reached, it is enough that no node is met twice.
theorem of_nodup (sites : List Site) (hr : roots ⊆ sites) (hc : ∀ s ∈ sites, m.parts s ⊆ sites)
    (hp : ∀ s ∈ sites, m.Present s) (hn : (roots ++ sites.flatMap m.parts).Nodup) :
    m.SinglePlace roots := by
  have hreach : ∀ {s}, m.Reached roots s → s ∈ sites := by
    rintro s ⟨r, hrr, h⟩
    exact h.mem_of_closed (hr hrr) hc
  have ⟨hroots, hparts, hdis⟩ := List.nodup_append.mp hn
  have ⟨hone, hpair⟩ := List.nodup_flatMap.mp hparts
  refine ⟨fun hs => hp _ (hreach hs), ?_, ?_, ?_, ?_⟩
  · exact hroots.imp fun hne e => (hne e).elim
  · exact fun hs hcp hcr => (hdis _ hcr _ (List.mem_flatMap.mpr ⟨_, hreach hs, hcp⟩) rfl).elim
  · exact fun hs => (hone _ (hreach hs)).imp fun hne e => (hne e).elim
  · intro p q c hps hqs hcp hcq _
    by_contra hne
    have : Std.Symm (Function.onFun List.Disjoint m.parts) := ⟨fun _ _ h => List.Disjoint.symm h⟩
    exact hpair.forall (hreach hps) (hreach hqs) hne hcp hcq

end SinglePlace
end Model
end Parvar
