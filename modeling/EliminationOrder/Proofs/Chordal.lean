/-
Orders that fill nothing, and the graphs that have one.

In a perfect order each node is simplicial among those that come later: the later nodes
it is joined to are joined to each other already.  A graph has such an order just when it
is chordal, which is to say that no cycle of four or more nodes goes without a shortcut
(`chordal_iff_perfectOrder`).

One direction looks at the node of a cycle that comes first in the order; its two
neighbors on the cycle are the ends of a chord.  The other finds a simplicial node, puts
it in front, and goes on with the rest.  It is found apart from another one: away from a
node `v` take a connected piece of the nodes that `v` is not joined to, and the border of
that piece.  All of the border is joined to `v`, so two nodes of it, `v`, and a way through
the piece make a cycle, and the chord of the shortest can only join the two.  Hence the
border is a clique, and a simplicial node of the piece and its border, which there are fewer
of, can be found inside the piece.

Forests are the graphs without cycles.  Their perfect orders are those that always take a
leaf of what is left.
-/
import EliminationOrder.Proofs.Path
import Mathlib.Data.Finset.Card
import Mathlib.Logic.Relation

namespace EliminationOrder

variable {joined joined' : Nat → Nat → Prop} {s t : Nat → Prop} {p q c : List Nat} {u v w x : Nat}

/-! ### Perfect orders -/

/-- The nodes of `s` that `w` is joined to are joined to each other. -/
def Simplicial (joined : Nat → Nat → Prop) (s : Nat → Prop) (w : Nat) : Prop :=
  ∀ a b, s a → s b → joined w a → joined w b → a ≠ b → joined a b

/-- Each node is simplicial among those that come later. -/
def PerfectOrder (joined : Nat → Nat → Prop) : List Nat → Prop
  | [] => True
  | x :: p => Simplicial joined (· ∈ p) x ∧ PerfectOrder joined p

theorem Simplicial.mono (h : Simplicial joined t w) (hst : ∀ x, s x → t x) :
    Simplicial joined s w :=
  fun a b ha hb => h a b (hst a ha) (hst b hb)

/-- Leaving nodes out keeps an order perfect. -/
theorem PerfectOrder.sublist (h : PerfectOrder joined p) (hqp : q.Sublist p) :
    PerfectOrder joined q := by
  induction hqp with
  | slnil => exact h
  | cons _ _ ih => exact ih h.2
  | cons_cons _ hqp ih => exact ⟨h.1.mono fun _ hx => hqp.subset hx, ih h.2⟩

theorem PerfectOrder.congr (h : PerfectOrder joined p)
    (hsame : ∀ a ∈ p, ∀ b ∈ p, (joined a b ↔ joined' a b)) : PerfectOrder joined' p := by
  induction p with
  | nil => trivial
  | cons x p ih =>
      refine ⟨?_, ih h.2 fun a ha b hb => hsame a (by simp [ha]) b (by simp [hb])⟩
      intro a b ha hb hxa hxb hab
      have hjoined := h.1 a b ha hb ((hsame x (by simp) a (by simp [ha])).mpr hxa)
        ((hsame x (by simp) b (by simp [hb])).mpr hxb) hab
      exact (hsame a (by simp [ha]) b (by simp [hb])).mp hjoined

/-- Where everything is joined, any order is perfect. -/
theorem perfectOrder_of_complete (h : ∀ a ∈ p, ∀ b ∈ p, a ≠ b → joined a b) :
    PerfectOrder joined p := by
  induction p with
  | nil => trivial
  | cons x p ih =>
      refine ⟨fun a b ha hb _ _ => h a (by simp [ha]) b (by simp [hb]), ih fun a ha b hb => ?_⟩
      exact h a (by simp [ha]) b (by simp [hb])

/-! ### Cycles and chords -/

/-- Three nodes or more, none met twice, each joined to the next and the last to the first. -/
structure Cycle (joined : Nat → Nat → Prop) (c : List Nat) : Prop where
  nodup : c.Nodup
  length : 3 ≤ c.length
  closed : (c ++ c.take 1).IsChain joined

/-- Two nodes of the list are joined without being next to each other around it. -/
def HasChord (joined : Nat → Nat → Prop) (c : List Nat) : Prop :=
  ∃ before a between b after, c = before ++ a :: (between ++ b :: after) ∧
    between ≠ [] ∧ (before ≠ [] ∨ after ≠ []) ∧ joined a b

/-- Every cycle of four nodes or more has a chord. -/
def Chordal (joined : Nat → Nat → Prop) : Prop :=
  ∀ c, Cycle joined c → 4 ≤ c.length → HasChord joined c

/-- There are no cycles: every connected piece is a tree. -/
def Forest (joined : Nat → Nat → Prop) : Prop :=
  ∀ c, ¬ Cycle joined c

theorem Forest.chordal (h : Forest joined) : Chordal joined :=
  fun c hc _ => absurd hc (h c)

/-- A node of a cycle stands between two others, which a chord can join if there is a fourth. -/
theorem Cycle.exists_around (h : Cycle joined c) (hx : x ∈ c) :
    ∃ a b, a ∈ c ∧ b ∈ c ∧ a ≠ x ∧ b ≠ x ∧ a ≠ b ∧ joined a x ∧ joined x b ∧
      (4 ≤ c.length → joined a b → joined b a → HasChord joined c) := by
  obtain ⟨before, after, rfl⟩ := List.append_of_mem hx
  obtain ⟨hnodup, hlen, hclosed⟩ := h
  rcases List.eq_nil_or_concat before with rfl | ⟨before, a, rfl⟩
  · -- The node stands first, and the one before it last.
    rcases after with - | ⟨b, after⟩
    · simp at hlen
    rcases List.eq_nil_or_concat after with rfl | ⟨between, a, rfl⟩
    · simp at hlen
    have hlast : ((x :: b :: between) ++ a :: x :: []).IsChain joined := by simpa using hclosed
    have hfirst : (x :: b :: (between ++ [a, x])).IsChain joined := by simpa using hclosed
    refine ⟨a, b, by simp, by simp, by grind, by grind, by grind,
      (List.isChain_append_cons_cons.mp hlast).2.1, (List.isChain_cons_cons.mp hfirst).1, ?_⟩
    intro hfour _ hba
    exact ⟨[x], b, between, a, [], by simp, by grind, by simp, hba⟩
  · rcases after with - | ⟨b, after⟩
    · -- The node stands last, and the one after it first.
      rcases before with - | ⟨b, between⟩
      · simp at hlen
      have hlast : ((b :: between) ++ a :: x :: [b]).IsChain joined := by simpa using hclosed
      have hchain := (List.isChain_append_cons_cons.mp hlast).2
      refine ⟨a, b, by simp, by simp, by grind, by grind, by grind, hchain.1,
        (List.isChain_cons_cons.mp hchain.2).1, ?_⟩
      intro hfour _ hba
      exact ⟨[], b, between, a, [x], by simp, by grind, by simp, hba⟩
    · have hmid : (before ++ a :: x :: (b :: (after ++
          (before ++ a :: x :: b :: after).take 1))).IsChain joined := by simpa using hclosed
      have hchain := (List.isChain_append_cons_cons.mp hmid).2
      refine ⟨a, b, by simp, by simp, by grind, by grind, by grind, hchain.1,
        (List.isChain_cons_cons.mp hchain.2).1, ?_⟩
      intro hfour hab _
      exact ⟨before, a, [x], b, after, by simp, by simp, by grind, hab⟩

/-- One node of a cycle comes before all others of it in an order. -/
theorem Cycle.exists_first (h : Cycle joined c) (hcp : ∀ x ∈ c, x ∈ p) :
    ∃ before x later, p = before ++ x :: later ∧ x ∈ c ∧ ∀ y ∈ c, y ≠ x → y ∈ later := by
  induction p with
  | nil =>
      have hnil : c = [] := List.eq_nil_iff_forall_not_mem.mpr fun x hx => by simpa using hcp x hx
      have hlen := h.length
      simp [hnil] at hlen
  | cons x p ih =>
      have hlater : ∀ y ∈ c, y ≠ x → y ∈ p := by
        intro y hy hyx
        simpa [hyx] using hcp y hy
      by_cases hx : x ∈ c
      · exact ⟨[], x, p, rfl, hx, hlater⟩
      · obtain ⟨before, z, later, rfl, hz, hlast⟩ :=
          ih fun y hy => hlater y hy fun hyx => hx (hyx ▸ hy)
        exact ⟨x :: before, z, later, rfl, hz, hlast⟩

/-- **A cycle on a perfect order has a chord**, between the neighbors of its first node. -/
theorem PerfectOrder.hasChord (hsymm : ∀ a b, joined a b → joined b a) (h : PerfectOrder joined p)
    (hc : Cycle joined c) (hfour : 4 ≤ c.length) (hcp : ∀ x ∈ c, x ∈ p) : HasChord joined c := by
  obtain ⟨before, x, later, rfl, hx, hlater⟩ := hc.exists_first hcp
  obtain ⟨a, b, ha, hb, hax, hbx, hab, hjoinedA, hjoinedB, hchord⟩ := hc.exists_around hx
  have hfirst := (h.sublist (List.sublist_append_right before (x :: later))).1
  have hjoined := hfirst a b (hlater a ha hax) (hlater b hb hbx) (hsymm a x hjoinedA) hjoinedB hab
  exact hchord hfour hjoined (hsymm a b hjoined)

/-! ### Leaves

In a forest, being simplicial is being a leaf: two neighbors that are joined to each other
would close a triangle.  Orders that always take a leaf next exist in forests only.
-/

/-- Each node is joined to at most one of those that come later. -/
def LeafOrder (joined : Nat → Nat → Prop) : List Nat → Prop
  | [] => True
  | x :: p => (∀ a ∈ p, ∀ b ∈ p, joined x a → joined x b → a = b) ∧ LeafOrder joined p

instance decidableLeafOrder [DecidableRel joined] : (p : List Nat) → Decidable (LeafOrder joined p)
  | [] => isTrue trivial
  | _ :: p =>
    have := decidableLeafOrder p
    inferInstanceAs (Decidable (_ ∧ _))

/-- With fewer edges a forest is one still. -/
theorem Forest.mono (h : Forest joined) (hfewer : ∀ a b, joined' a b → joined a b) :
    Forest joined' :=
  fun c hc => h c ⟨hc.nodup, hc.length, hc.closed.imp hfewer⟩

theorem LeafOrder.right_of_append (h : LeafOrder joined (p ++ q)) : LeafOrder joined q := by
  induction p with
  | nil => exact h
  | cons x p ih => exact ih h.2

section Forest

variable (hsymm : ∀ a b, joined a b → joined b a)

include hsymm

/-- **Where each node has at most one later neighbor there is no cycle**, since the first
node of a cycle would have two. -/
theorem LeafOrder.forest (h : LeafOrder joined p) (hmem : ∀ a b, joined a b → a ∈ p) :
    Forest joined := by
  intro c hc
  have hcp : ∀ x ∈ c, x ∈ p := by
    intro x hx
    obtain ⟨-, b, -, -, -, -, -, -, hxb, -⟩ := hc.exists_around hx
    exact hmem x b hxb
  obtain ⟨before, x, later, rfl, hx, hlater⟩ := hc.exists_first hcp
  obtain ⟨a, b, ha, hb, hax, hbx, hab, hjoinedA, hjoinedB, -⟩ := hc.exists_around hx
  exact hab (h.right_of_append.1 a (hlater a ha hax) b (hlater b hb hbx) (hsymm a x hjoinedA) hjoinedB)

variable (hloop : ∀ a, ¬ joined a a)

include hloop

theorem Forest.eq_of_simplicial (h : Forest joined) (hw : Simplicial joined s w) {a b : Nat}
    (ha : s a) (hb : s b) (hwa : joined w a) (hwb : joined w b) : a = b := by
  have hne : ∀ {x}, joined w x → w ≠ x := by
    rintro x hwx rfl
    exact hloop w hwx
  by_contra hab
  have hedge := hw a b ha hb hwa hwb hab
  refine h [w, a, b] ⟨?_, Nat.le_refl 3, ?_⟩
  · simp [hne hwa, hne hwb, hab]
  · simp [hwa, hedge, hsymm w b hwb]

/-- A perfect order of a forest always takes a leaf of what is left. -/
theorem PerfectOrder.leafOrder (h : PerfectOrder joined p) (hforest : Forest joined) :
    LeafOrder joined p := by
  induction p with
  | nil => trivial
  | cons x p ih =>
      refine ⟨?_, ih h.2⟩
      intro a ha b hb hxa hxb
      exact hforest.eq_of_simplicial hsymm hloop h.1 ha hb hxa hxb

end Forest

/-! ### Ways and shortcuts -/

/-- From `x` to `y` along the list, meeting no node twice. -/
structure Way (joined : Nat → Nat → Prop) (x y : Nat) (l : List Nat) : Prop where
  nodup : l.Nodup
  chain : l.IsChain joined
  head : l.head? = some x
  last : l.getLast? = some y

variable {y : Nat} {l : List Nat}

/-- A way can go straight from one of its nodes to a later one that it is joined to. -/
theorem Way.shortcut {before between after : List Nat} {a b : Nat}
    (h : Way joined x y (before ++ a :: (between ++ b :: after))) (hab : joined a b) :
    Way joined x y (before ++ a :: b :: after) := by
  obtain ⟨hnodup, hchain, hhead, hlast⟩ := h
  have hsub : (before ++ a :: b :: after).Sublist (before ++ a :: (between ++ b :: after)) :=
    ((List.sublist_append_right _ _).cons_cons a).append_left before
  obtain ⟨hchain₁, hchain₂⟩ := List.isChain_split.mp hchain
  have hchain₃ : (b :: after).IsChain joined := by
    rw [← List.cons_append] at hchain₂
    exact hchain₂.right_of_append
  refine ⟨hnodup.sublist hsub, List.isChain_append_cons_cons.mpr ⟨hchain₁, hab, hchain₃⟩, ?_, ?_⟩
  · simpa using hhead
  · rw [List.append_cons, List.getLast?_append_cons]
    rwa [← List.cons_append, ← List.append_assoc, List.getLast?_append_cons] at hlast

/-- A node that is joined to both ends of a way closes it to a cycle. -/
theorem Way.cycle (h : Way joined x y l) (hlen : 2 ≤ l.length) (hv : v ∉ l) (hvx : joined v x)
    (hyv : joined y v) : Cycle joined (v :: l) := by
  refine ⟨List.nodup_cons.mpr ⟨hv, h.nodup⟩, by simpa using hlen, ?_⟩
  rw [List.take_succ_cons, List.take_zero, List.cons_append, List.isChain_cons, List.isChain_append]
  exact ⟨by simp [h.head, hvx], h.chain, List.isChain_singleton v, by simpa [h.last] using hyv⟩

/-- What has nodes of the way on both sides is neither of its ends. -/
theorem Way.ne_ends {before after : List Nat} {b : Nat} (h : Way joined x y (before ++ b :: after))
    (hbefore : before ≠ []) (hafter : after ≠ []) : b ≠ x ∧ b ≠ y := by
  obtain ⟨hnodup, -, hhead, hlast⟩ := h
  rw [List.head?_append_of_ne_nil _ hbefore] at hhead
  rw [List.append_cons, List.getLast?_append_of_ne_nil _ hafter] at hlast
  have hx : x ∈ before := List.mem_of_mem_head? hhead
  have hy : y ∈ after := List.mem_of_mem_getLast? hlast
  rw [List.nodup_append, List.nodup_cons] at hnodup
  constructor
  · rintro rfl
    exact hnodup.2.2 b hx b (by simp) rfl
  · rintro rfl
    exact hnodup.2.1.1 hy

/-- A way of fewer than three nodes between different ends is an edge. -/
theorem Way.joined_of_length_lt (h : Way joined x y l) (hxy : x ≠ y) (hlen : l.length < 3) :
    joined x y := by
  obtain ⟨-, hchain, hhead, hlast⟩ := h
  match l, hhead, hlast with
  | [], hhead, _ => simp at hhead
  | [w], hhead, hlast => exact absurd (Option.some.inj (hhead.symm.trans hlast)) hxy
  | [a, b], hhead, hlast =>
      obtain rfl := Option.some.inj hhead
      obtain rfl := Option.some.inj hlast
      exact (List.isChain_cons_cons.mp hchain).1
  | _ :: _ :: _ :: _, _, _ =>
      simp only [List.length_cons] at hlen
      omega

/--
A way from `x` to `y` whose other nodes `v` is not joined to, when it is joined to `x` and
to `y`, makes a cycle with `v`.  No chord ends in `v`, so there is a shorter way, and the
shortest is an edge.
-/
theorem Chordal.joined_of_way (h : Chordal joined) (hvx : joined v x) (hyv : joined y v)
    (hxy : x ≠ y) (n : Nat) :
    ∀ {l : List Nat}, l.length = n → Way joined x y l → v ∉ l →
      (∀ w ∈ l, w ≠ x → w ≠ y → ¬ joined v w) → joined x y := by
  induction n using Nat.strong_induction_on with
  | _ n ih =>
      intro l hlen hway hv hfar
      by_cases hshort : l.length < 3
      · exact hway.joined_of_length_lt hxy hshort
      obtain ⟨before, a, between, b, after, hsplit, hbetween, houter, hab⟩ :=
        h _ (hway.cycle (by omega) hv hvx hyv) (by simpa using hshort)
      rcases before with - | ⟨v', before⟩
      · -- A chord from `v` ends inside, where `v` is not joined to anything.
        obtain ⟨rfl, rfl⟩ := List.cons.inj hsplit
        obtain ⟨hbx, hby⟩ := hway.ne_ends hbetween (by simpa using houter)
        exact absurd hab (hfar b (by simp) hbx hby)
      · rw [List.cons_append] at hsplit
        obtain ⟨rfl, rfl⟩ := List.cons.inj hsplit
        have hsub : before ++ a :: b :: after ⊆ before ++ a :: (between ++ b :: after) := by grind
        refine ih _ ?_ rfl (hway.shortcut hab) (fun hc => hv (hsub hc))
          (fun w hw => hfar w (hsub hw))
        have := List.length_pos_of_ne_nil hbetween
        subst hlen
        simp only [List.length_append, List.length_cons]
        omega

/-! ### The border of a piece -/

/-- A node other than `v` that `v` is not joined to. -/
def Apart (joined : Nat → Nat → Prop) (nodes : Finset Nat) (v x : Nat) : Prop :=
  x ∈ nodes ∧ x ≠ v ∧ ¬ joined v x

/-- An edge between two nodes that are both apart from `v`. -/
def ApartEdge (joined : Nat → Nat → Prop) (nodes : Finset Nat) (v a b : Nat) : Prop :=
  joined a b ∧ Apart joined nodes v a ∧ Apart joined nodes v b

/-- The nodes that can be reached from `u` without coming near `v`. -/
def Piece (joined : Nat → Nat → Prop) (nodes : Finset Nat) (v u x : Nat) : Prop :=
  Relation.ReflTransGen (ApartEdge joined nodes v) u x

/-- The nodes outside the piece that it is joined to. -/
def Border (joined : Nat → Nat → Prop) (nodes : Finset Nat) (v u x : Nat) : Prop :=
  x ∈ nodes ∧ ¬ Piece joined nodes v u x ∧ ∃ w, Piece joined nodes v u w ∧ joined w x

/-- Where no node is apart from another, each is simplicial. -/
theorem simplicial_of_not_apart {nodes : Finset Nat}
    (h : ¬ ∃ v ∈ nodes, ∃ u, Apart joined nodes v u) : Simplicial joined (· ∈ nodes) w := by
  intro a b ha hb _ _ hab
  by_contra hc
  exact h ⟨a, ha, b, hb, hab.symm, hc⟩

open scoped Classical in
/-- The piece with its border. -/
noncomputable def near (joined : Nat → Nat → Prop) (nodes : Finset Nat) (v u : Nat) : Finset Nat :=
  nodes.filter fun x => Piece joined nodes v u x ∨ Border joined nodes v u x

section PieceAndBorder

variable {nodes : Finset Nat}

theorem mem_near : x ∈ near joined nodes v u ↔
    x ∈ nodes ∧ (Piece joined nodes v u x ∨ Border joined nodes v u x) := by
  simp only [near, Finset.mem_filter]

/-- Whatever a node of the piece is joined to is in the piece or on its border. -/
theorem mem_near_of_joined (hw : Piece joined nodes v u w) (hx : x ∈ nodes) (hwx : joined w x) :
    x ∈ near joined nodes v u := by
  rw [mem_near]
  by_cases h : Piece joined nodes v u x
  · exact ⟨hx, Or.inl h⟩
  · exact ⟨hx, Or.inr ⟨hx, h, w, hw, hwx⟩⟩

theorem Simplicial.of_near (h : Simplicial joined (· ∈ near joined nodes v u) w)
    (hw : Piece joined nodes v u w) : Simplicial joined (· ∈ nodes) w := by
  intro a b ha hb hwa hwb hab
  exact h a b (mem_near_of_joined hw ha hwa) (mem_near_of_joined hw hb hwb) hwa hwb hab

variable (hu : Apart joined nodes v u)

include hu

theorem Piece.apart (h : Piece joined nodes v u x) : Apart joined nodes v x := by
  cases h with
  | refl => exact hu
  | tail _ hstep => exact hstep.2.2

variable (hsymm : ∀ a b, joined a b → joined b a)

include hsymm

/-- `v` is joined to all of the border. -/
theorem Border.joined_left (h : Border joined nodes v u x) : joined v x := by
  obtain ⟨hx, hnot, w, hw, hwx⟩ := h
  by_contra hvx
  have hwv := hw.apart hu
  have hxv : x ≠ v := by
    rintro rfl
    exact hwv.2.2 (hsymm w x hwx)
  exact hnot (hw.tail ⟨hwx, hwv, hx, hxv, hvx⟩)

/-- Two nodes of the border have a way through the piece. -/
theorem Border.walk (hx : Border joined nodes v u x) (hy : Border joined nodes v u y) :
    Walk joined (Apart joined nodes v) x y := by
  obtain ⟨-, -, w, hw, hwx⟩ := hx
  obtain ⟨-, -, w', hw', hwy⟩ := hy
  have hedges : Std.Symm (ApartEdge joined nodes v) := ⟨fun a b h => ⟨hsymm a b h.1, h.2.2, h.2.1⟩⟩
  have hback : Piece joined nodes v w u := Relation.ReflTransGen.stdSymm.symm _ _ hw
  have hthrough : ∀ {a : Nat}, Piece joined nodes v a w' → ∀ {x : Nat}, joined x a →
      Walk joined (Apart joined nodes v) x y := by
    intro a ha
    induction ha using Relation.ReflTransGen.head_induction_on with
    | refl =>
        intro x hxw
        exact Walk.step hxw (hw'.apart hu) (Walk.edge hwy)
    | head hstep _ ih =>
        intro x hxa
        exact Walk.step hxa hstep.2.1 (ih hstep.1)
  exact hthrough (hback.trans hw') (hsymm w x hwx)

variable (hloop : ∀ a, ¬ joined a a)

include hloop

/-- **The border is a clique.** -/
theorem Border.clique (hchordal : Chordal joined) (hx : Border joined nodes v u x)
    (hy : Border joined nodes v u y) (hxy : x ≠ y) : joined x y := by
  have hvx := hx.joined_left hu hsymm
  have hvy := hy.joined_left hu hsymm
  have hpath : PathThrough joined (Apart joined nodes v) x y :=
    (pathThrough_iff_walk hxy (fun h => h.2.2 hvx) (fun h => h.2.2 hvy)).mpr
      (hx.walk hu hsymm hy)
  obtain ⟨inner, hinner, hnodup, hchain⟩ := hpath
  have hlast : (x :: (inner ++ [y])).getLast? = some y := by
    rw [← List.cons_append, List.getLast?_append_cons, List.getLast?_singleton]
  have hway : Way joined x y (x :: (inner ++ [y])) := ⟨hnodup, hchain, rfl, hlast⟩
  refine hchordal.joined_of_way hvx (hsymm v y hvy) hxy _ rfl hway ?_ ?_
  · have hvxne : v ≠ x := by
      rintro rfl
      exact hloop v hvx
    have hvyne : v ≠ y := by
      rintro rfl
      exact hloop v hvy
    have hvinner : v ∉ inner := fun hv => (hinner v hv).2.1 rfl
    simp [hvxne, hvyne, hvinner]
  · intro w hw hwx hwy
    have hmem : w ∈ inner := by simpa [hwx, hwy] using hw
    exact (hinner w hmem).2.2

theorem near_ssubset (hv : v ∈ nodes) : near joined nodes v u ⊂ nodes := by
  refine Finset.ssubset_iff_subset_ne.mpr ⟨fun x hx => (mem_near.mp hx).1, ?_⟩
  intro hall
  rcases (mem_near.mp (hall.symm ▸ hv)).2 with hpiece | hborder
  · exact (hpiece.apart hu).2.1 rfl
  · exact hloop v (hborder.joined_left hu hsymm)

/--
**Apart from any node there is a simplicial one**, if there is any.  The smaller graph is
the piece with its border.  A node that is found there apart from one of the border is not
on the border; if each of the border is joined to all of the rest, any node will do.
-/
theorem Chordal.exists_simplicial_apart (hchordal : Chordal joined) (hv : v ∈ nodes) :
    ∃ w, Apart joined nodes v w ∧ Simplicial joined (· ∈ nodes) w := by
  induction nodes using Finset.strongInduction generalizing v u with
  | H nodes ih =>
      have hfewer := near_ssubset hu hsymm hloop hv
      suffices h : ∃ w, Piece joined nodes v u w ∧
          Simplicial joined (· ∈ near joined nodes v u) w by
        obtain ⟨w, hw, hsimplicial⟩ := h
        exact ⟨w, hw.apart hu, hsimplicial.of_near hw⟩
      by_cases hborder : ∃ x, Border joined nodes v u x ∧
          ∃ y, Apart joined (near joined nodes v u) x y
      · obtain ⟨x, hx, y, hxy⟩ := hborder
        obtain ⟨w, hxw, hw⟩ := ih _ hfewer hxy (mem_near.mpr ⟨hx.1, Or.inr hx⟩)
        rcases (mem_near.mp hxw.1).2 with hpiece | hw'
        · exact ⟨w, hpiece, hw⟩
        · exact absurd (hx.clique hu hsymm hloop hchordal hw' hxw.2.1.symm) hxw.2.2
      by_cases hpair : ∃ x ∈ near joined nodes v u, ∃ y, Apart joined (near joined nodes v u) x y
      · obtain ⟨x, hx, y, hxy⟩ := hpair
        obtain ⟨w, hxw, hw⟩ := ih _ hfewer hxy hx
        rcases (mem_near.mp hxw.1).2 with hpiece | hw'
        · exact ⟨w, hpiece, hw⟩
        · have hwx : Apart joined (near joined nodes v u) w x :=
            ⟨hx, hxw.2.1.symm, fun hc => hxw.2.2 (hsymm w x hc)⟩
          exact absurd ⟨w, hw', x, hwx⟩ hborder
      · exact ⟨u, Relation.ReflTransGen.refl, simplicial_of_not_apart hpair⟩

end PieceAndBorder

/-! ### Chordal graphs and perfect orders -/

section Perfect

variable (hsymm : ∀ a b, joined a b → joined b a) (hloop : ∀ a, ¬ joined a a)

include hsymm hloop

theorem Chordal.exists_simplicial (h : Chordal joined) {nodes : Finset Nat} (hne : nodes.Nonempty) :
    ∃ w ∈ nodes, Simplicial joined (· ∈ nodes) w := by
  by_cases hpair : ∃ v ∈ nodes, ∃ u, Apart joined nodes v u
  · obtain ⟨v, hv, u, hu⟩ := hpair
    obtain ⟨w, hw, hsimplicial⟩ := h.exists_simplicial_apart hu hsymm hloop hv
    exact ⟨w, hw.1, hsimplicial⟩
  · obtain ⟨w, hw⟩ := hne
    exact ⟨w, hw, simplicial_of_not_apart hpair⟩

/-- Simplicial nodes, taken one after the other, make a perfect order. -/
theorem Chordal.exists_perfectOrder (h : Chordal joined) (nodes : Finset Nat) :
    ∃ p : List Nat, p.Nodup ∧ (∀ x, x ∈ p ↔ x ∈ nodes) ∧ PerfectOrder joined p := by
  induction nodes using Finset.strongInduction with
  | H nodes ih =>
      rcases nodes.eq_empty_or_nonempty with rfl | hne
      · exact ⟨[], List.nodup_nil, by simp, trivial⟩
      obtain ⟨w, hw, hsimplicial⟩ := h.exists_simplicial hsymm hloop hne
      obtain ⟨p, hnodup, hmem, hperfect⟩ := ih (nodes.erase w) (Finset.erase_ssubset hw)
      refine ⟨w :: p, ?_, ?_, ?_, hperfect⟩
      · rw [List.nodup_cons, hmem]
        exact ⟨Finset.notMem_erase w nodes, hnodup⟩
      · intro x
        rw [List.mem_cons, hmem, Finset.mem_erase]
        by_cases hxw : x = w
        · simp [hxw, hw]
        · simp [hxw]
      · refine hsimplicial.mono fun x hx => ?_
        exact Finset.mem_of_mem_erase ((hmem x).mp hx)

/-- **A graph is chordal just when it has a perfect order.** -/
theorem chordal_iff_perfectOrder {nodes : Finset Nat} (hnodes : ∀ a b, joined a b → a ∈ nodes) :
    Chordal joined ↔
      ∃ p : List Nat, p.Nodup ∧ (∀ x, x ∈ p ↔ x ∈ nodes) ∧ PerfectOrder joined p := by
  constructor
  · intro h
    exact h.exists_perfectOrder hsymm hloop nodes
  · intro h c hc hfour
    obtain ⟨p, -, hmem, hperfect⟩ := h
    refine hperfect.hasChord hsymm hc hfour fun x hx => (hmem x).mpr ?_
    obtain ⟨a, b, -, -, -, -, -, -, hxb, -⟩ := hc.exists_around hx
    exact hnodes x b hxb

end Perfect

end EliminationOrder
