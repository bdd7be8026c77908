/-
Module: MonoRuntime.Proofs.BasicBlockTree
Purpose: The linked blocks represent a red-black tree, and `bb_insert` on the links is insertion with
  repair on the tree. A rotation is proved once, for both sides: `rotate_right` and `rotate_left` are
  the same function of the side the rising child is on.
Trusted boundary: none
Main exports: Rep
-/
import MonoRuntime.Metadata.BasicBlock

namespace MonoRuntime.BasicBlock

open RedBlack

/-! ### Sides -/

/-- The child of a block on a side. -/
def BbLinks.child (h : BbLinks) (side : Side) (bb : Ptr) : Option Ptr :=
  match side with
  | .left => h.left bb
  | .right => h.right bb

def BbLinks.setChild (h : BbLinks) (side : Side) (bb : Ptr) (value : Option Ptr) : BbLinks :=
  match side with
  | .left => h.setLeft bb value
  | .right => h.setRight bb value

section Links

variable (h : BbLinks) (side : Side) (bb : Ptr) (value : Option Ptr)

theorem child_setChild (side' : Side) (x : Ptr) : (h.setChild side bb value).child side' x
      = if side' = side ∧ x = bb then value else h.child side' x := by
  cases side <;> cases side' <;>
    simp [BbLinks.setChild, BbLinks.child, BbLinks.setLeft, BbLinks.setRight, Function.update_apply]

@[simp]
theorem parent_setChild : (h.setChild side bb value).parent = h.parent := by
  cases side <;> rfl

@[simp]
theorem colour_setChild : (h.setChild side bb value).colour = h.colour := by
  cases side <;> rfl

@[simp]
theorem root_setChild : (h.setChild side bb value).root = h.root := by
  cases side <;> rfl

@[simp]
theorem child_setParent (side' : Side) : (h.setParent bb value).child side' = h.child side' := by
  cases side' <;> rfl

@[simp]
theorem child_setColour (colour : Colour) (side' : Side) : (h.setColour bb colour).child side' = h.child side' := by
  cases side' <;> rfl

end Links

/-- Rotate the child on a side above its parent. -/
def rotateUp (side : Side) (h : BbLinks) (parent : Ptr) : Option BbLinks :=
  match h.child side parent with
  | none => none
  | some bb =>
      let h :=
        match h.child side.flip bb with
        | some child => (h.setChild side parent (some child)).setParent child (some parent)
        | none => h.setChild side parent none
      let h := changeNode (h.setChild side.flip bb (some parent)) parent bb
      some (h.setParent parent (some bb))

theorem rotateRight_eq (h : BbLinks) (parent : Ptr) : rotateRight h parent = rotateUp .left h parent :=
  rfl

theorem rotateLeft_eq (h : BbLinks) (bb : Ptr) : rotateLeft h bb = rotateUp .right h bb :=
  rfl

/-! ### Trees in the links -/

/-- The links below `owner` are those of a tree. -/
def Rep (h : BbLinks) : (owner : Option Ptr) → ColourTree Ptr → Prop
  | _, .nil => True
  | owner, .node _ left p right =>
      h.parent p = owner ∧ h.left p = left.root ∧ h.right p = right.root ∧
        Rep h (some p) left ∧ Rep h (some p) right

/-- The block above a place. -/
def ownerOf : List (Frame Ptr) → Option Ptr
  | [] => none
  | f :: _ => some f.value

/-- The links around a place are those of the frames; `hole` is what they have in the place. -/
def RepFrames (h : BbLinks) : List (Frame Ptr) → (hole : Option Ptr) → Prop
  | [], hole => hole = some h.root
  | f :: above, hole =>
      h.parent f.value = ownerOf above ∧ h.child f.side f.value = hole ∧
        h.child f.side.flip f.value = f.sibling.root ∧ Rep h (some f.value) f.sibling ∧
        RepFrames h above (some f.value)

/-- The links are those of a tree in a place. -/
def RepAt (h : BbLinks) (above : List (Frame Ptr)) (t : ColourTree Ptr) : Prop :=
  Rep h (ownerOf above) t ∧ RepFrames h above t.root

theorem root_fill (f : Frame Ptr) (t : ColourTree Ptr) : (f.fill t).root = some f.value := by
  unfold Frame.fill
  split <;> rfl

theorem rep_fill (h : BbLinks) (owner : Option Ptr) (f : Frame Ptr) (t : ColourTree Ptr) :
    Rep h owner (f.fill t) ↔ h.parent f.value = owner ∧ h.child f.side f.value = t.root ∧
        h.child f.side.flip f.value = f.sibling.root ∧ Rep h (some f.value) t ∧ Rep h (some f.value) f.sibling := by
  obtain ⟨side, colour, value, sibling⟩ := f
  cases side with
  | left => exact Iff.rfl
  | right =>
    simp only [Frame.fill, Rep, BbLinks.child, Side.flip]
    tauto

theorem repAt_cons (h : BbLinks) (f : Frame Ptr) (above : List (Frame Ptr)) (t : ColourTree Ptr) :
    RepAt h (f :: above) t ↔ RepAt h above (f.fill t) := by
  rw [RepAt, RepAt, rep_fill, root_fill, ownerOf, RepFrames]
  tauto

theorem repAt_plug (h : BbLinks) : ∀ (above : List (Frame Ptr)) (t : ColourTree Ptr),
    RepAt h [] (plug above t) ↔ RepAt h above t
  | [], _ => Iff.rfl
  | f :: above, t => by rw [plug, repAt_plug h above, repAt_cons]

variable {h h' : BbLinks} {t : ColourTree Ptr} {x : Ptr} {above : List (Frame Ptr)} {f g : Frame Ptr}

theorem Rep.congr : ∀ {t : ColourTree Ptr} {owner : Option Ptr}, Rep h owner t →
    (∀ x ∈ t.inorder, ∀ side, h'.child side x = h.child side x) →
      (∀ x ∈ t.inorder, h'.parent x = h.parent x) → Rep h' owner t
  | .nil, _, _, _, _ => trivial
  | .node _ left p right, owner, rep, children, parents => by
      obtain ⟨parent, isLeft, isRight, repLeft, repRight⟩ := rep
      have here : p ∈ (ColourTree.node ‹_› left p right).inorder := by simp [ColourTree.inorder]
      refine ⟨(parents p here).trans parent, (children p here .left).trans isLeft,
        (children p here .right).trans isRight, repLeft.congr ?_ ?_, repRight.congr ?_ ?_⟩
      · exact fun x member => children x (by simp [ColourTree.inorder, member])
      · exact fun x member => parents x (by simp [ColourTree.inorder, member])
      · exact fun x member => children x (by simp [ColourTree.inorder, member])
      · exact fun x member => parents x (by simp [ColourTree.inorder, member])

theorem Rep.reparent {owner owner' : Option Ptr} (rep : Rep h owner t) (nodup : t.inorder.Nodup)
    (children : ∀ x ∈ t.inorder, ∀ side, h'.child side x = h.child side x)
    (parents : ∀ x ∈ t.inorder, t.root ≠ some x → h'.parent x = h.parent x)
    (top : ∀ x, t.root = some x → h'.parent x = owner') : Rep h' owner' t := by
  cases t with
  | nil => trivial
  | node colour left p right =>
    obtain ⟨_, isLeft, isRight, repLeft, repRight⟩ := rep
    simp only [ColourTree.inorder, List.mem_append, List.mem_cons] at children parents
    simp only [ColourTree.inorder, List.nodup_append, List.nodup_cons, List.mem_cons] at nodup
    obtain ⟨_, ⟨p_right, _⟩, apart⟩ := nodup
    refine ⟨top p rfl, (children p (Or.inr (Or.inl rfl)) .left).trans isLeft,
      (children p (Or.inr (Or.inl rfl)) .right).trans isRight, repLeft.congr ?_ ?_,
      repRight.congr ?_ ?_⟩
    · exact fun x member => children x (Or.inl member)
    · refine fun x member => parents x (Or.inl member) fun same => ?_
      exact apart x member p (Or.inl rfl) (Option.some.inj same).symm
    · exact fun x member => children x (Or.inr (Or.inr member))
    · refine fun x member => parents x (Or.inr (Or.inr member)) fun same => ?_
      exact p_right (Option.some.inj same ▸ member)

theorem RepFrames.congr : ∀ {above : List (Frame Ptr)} {hole : Option Ptr}, RepFrames h above hole →
      (∀ x ∈ frameValues above, ∀ side, h'.child side x = h.child side x) →
        (∀ x ∈ frameValues above, h'.parent x = h.parent x) → h'.root = h.root → RepFrames h' above hole
  | [], hole, rep, _, _, root => rep.trans (by rw [root])
  | f :: above, hole, rep, children, parents, root => by
      obtain ⟨parent, place, other, sibling, rest⟩ := rep
      simp only [frameValues_cons, List.cons_append, List.mem_cons, List.mem_append] at children parents
      refine ⟨(parents _ (Or.inl rfl)).trans parent, (children _ (Or.inl rfl) _).trans place,
        (children _ (Or.inl rfl) _).trans other, sibling.congr ?_ ?_, rest.congr ?_ ?_ root⟩
      · exact fun x member => children x (Or.inr (Or.inl member))
      · exact fun x member => parents x (Or.inr (Or.inl member))
      · exact fun x member => children x (Or.inr (Or.inr member))
      · exact fun x member => parents x (Or.inr (Or.inr member))

theorem root_mem (isRoot : t.root = some x) : x ∈ t.inorder := by
  cases t with
  | nil => cases isRoot
  | node _ _ p _ =>
    cases isRoot
    simp [ColourTree.inorder]

/-! ### Rotations -/

theorem changeNode_spec {y : Ptr} (frames : RepFrames h above (some x)) (owner : h.parent x = ownerOf above)
    (x_off : x ∉ frameValues above) (y_off : y ∉ frameValues above) (nodup : (frameValues above).Nodup) :
    RepFrames (changeNode h x y) above (some y) ∧ (changeNode h x y).parent = Function.update h.parent y (ownerOf above) ∧
      (∀ z ∉ frameValues above, ∀ side, (changeNode h x y).child side z = h.child side z) ∧
      (changeNode h x y).colour = h.colour := by
  cases above with
  | nil =>
    simp only [changeNode, owner, ownerOf]
    exact ⟨rfl, rfl, fun z _ side => by cases side <;> rfl, rfl⟩
  | cons f above =>
    obtain ⟨parent, place, other, sibling, rest⟩ := frames
    simp only [frameValues_cons, List.cons_append, List.mem_cons, List.mem_append, not_or] at x_off y_off
    rw [frameValues_cons, List.cons_append, List.nodup_cons, List.mem_append, not_or] at nodup
    obtain ⟨⟨f_sibling, f_above⟩, _⟩ := nodup
    -- The place is on the side of the frame, so that side is the one that is changed.
    have changed : changeNode h x y
        = (h.setChild f.side f.value (some y)).setParent y (some f.value) := by
      cases side : f.side with
      | left =>
        rw [side] at place
        have isLeft : h.left f.value = some x := place
        simp only [changeNode, owner, ownerOf, BbLinks.setChild]
        rw [if_pos isLeft]
      | right =>
        rw [side] at other
        have notLeft : h.left f.value ≠ some x := by
          intro same
          exact x_off.2.1 (root_mem (other.symm.trans same))
        simp only [changeNode, owner, ownerOf, BbLinks.setChild]
        rw [if_neg notLeft]
    have children : ∀ z side, (changeNode h x y).child side z
        = if side = f.side ∧ z = f.value then some y else h.child side z := by
      intro z side
      rw [changed, child_setParent, child_setChild]
    have parents : (changeNode h x y).parent = Function.update h.parent y (some f.value) := by
      rw [changed]
      simp [BbLinks.setParent]
    have away : ∀ {z}, z ≠ f.value → ∀ side, (changeNode h x y).child side z = h.child side z := by
      intro z ne side
      rw [children, if_neg fun both => ne both.2]
    refine ⟨⟨?_, ?_, ?_, sibling.congr ?_ ?_, rest.congr ?_ ?_ ?_⟩, parents, ?_, ?_⟩
    · rw [parents, Function.update_of_ne (Ne.symm y_off.1)]
      exact parent
    · rw [children, if_pos ⟨rfl, rfl⟩]
    · rw [children, if_neg fun both => Side.flip_ne _ both.1]
      exact other
    · intro z member
      exact away fun same => f_sibling (same ▸ member)
    · intro z member
      rw [parents, Function.update_of_ne]
      exact fun same => y_off.2.1 (same ▸ member)
    · intro z member
      exact away fun same => f_above (same ▸ member)
    · intro z member
      rw [parents, Function.update_of_ne]
      exact fun same => y_off.2.2 (same ▸ member)
    · rw [changed]
      simp [BbLinks.setParent]
    · intro z z_off
      refine away fun same => z_off ?_
      rw [same, frameValues_cons]
      exact List.mem_cons_self
    · rw [changed]
      simp [BbLinks.setParent]

/-- Rotating the child `p` of `g` on a side up: `g` takes over the inner subtree of `p`. Colours do not
matter here. -/
theorem rotateUp_spec {side : Side} {g p : Ptr} {outer inner other : ColourTree Ptr} {cg cp : Colour} (cg' cp' : Colour)
    (rep : RepAt h above (Frame.fill ⟨side, cg, g, other⟩ (Frame.fill ⟨side, cp, p, inner⟩ outer)))
    (nodup : (frameValues above ++ (g :: other.inorder ++ (p :: inner.inorder ++ outer.inorder))).Nodup) :
    ∃ h', rotateUp side h g = some h' ∧
      RepAt h' above (Frame.fill ⟨side, cp', p, Frame.fill ⟨side, cg', g, other⟩ inner⟩ outer) ∧ h'.colour = h.colour := by
  obtain ⟨repTree, frames⟩ := rep
  rw [rep_fill, rep_fill, root_fill] at repTree
  obtain ⟨g_parent, g_child, g_other, ⟨p_parent, p_outer, p_inner, repOuter, repInner⟩, repOther⟩ :=
    repTree
  rw [root_fill] at frames
  simp only [List.nodup_append, List.nodup_cons, List.mem_append, List.mem_cons, not_or,
    List.cons_append] at nodup
  obtain ⟨nodupFrames, ⟨⟨g_off_other, g_ne_p, g_off_inner, g_off_outer⟩, nodupOther,
    ⟨⟨p_off_inner, p_off_outer⟩, nodupInner, nodupOuter, inner_outer⟩, other_rest⟩, frames_rest⟩ := nodup
  have g_off : g ∉ frameValues above := fun member => frames_rest g member g (Or.inl rfl) rfl
  have p_off : p ∉ frameValues above := fun member =>
    frames_rest p member p (Or.inr (Or.inr (Or.inl rfl))) rfl
  have inner_off : ∀ x ∈ inner.inorder, x ∉ frameValues above := fun x inInner member =>
    frames_rest x member x (Or.inr (Or.inr (Or.inr (Or.inl inInner)))) rfl
  have outer_off : ∀ x ∈ outer.inorder, x ∉ frameValues above := fun x inOuter member =>
    frames_rest x member x (Or.inr (Or.inr (Or.inr (Or.inr inOuter)))) rfl
  have other_off : ∀ x ∈ other.inorder, x ∉ frameValues above := fun x inOther member =>
    frames_rest x member x (Or.inr (Or.inl inOther)) rfl
  -- The links after `g` and `p` have their new children.
  obtain ⟨h2, h2_child, h2_parent, h2_colour, h2_root, run⟩ : ∃ h2 : BbLinks,
      (∀ side' x, h2.child side' x
        = if side' = side.flip ∧ x = p then some g
          else if side' = side ∧ x = g then inner.root else h.child side' x) ∧
      (∀ x, h2.parent x = if inner.root = some x then some g else h.parent x) ∧
      h2.colour = h.colour ∧ h2.root = h.root ∧
      rotateUp side h g = some ((changeNode h2 g p).setParent g (some p)) := by
    cases inner with
    | nil =>
      refine ⟨(h.setChild side g none).setChild side.flip p (some g), ?_, ?_, ?_, ?_, ?_⟩
      · intro side' x
        rw [child_setChild, child_setChild]
        rfl
      · intro x
        simp [ColourTree.root]
      · simp
      · simp
      · simp only [rotateUp, g_child, p_inner, ColourTree.root]
    | node c left r right =>
      refine ⟨((h.setChild side g (some r)).setParent r (some g)).setChild side.flip p (some g),
        ?_, ?_, ?_, ?_, ?_⟩
      · intro side' x
        rw [child_setChild, child_setParent, child_setChild]
        rfl
      · intro x
        simp only [parent_setChild, BbLinks.setParent, Function.update_apply, ColourTree.root,
          Option.some.injEq, eq_comm]
      · simp [BbLinks.setParent]
      · simp [BbLinks.setParent]
      · simp only [rotateUp, g_child, p_inner, ColourTree.root]
  have h2_child_away : ∀ {x}, x ≠ g → x ≠ p → ∀ side', h2.child side' x = h.child side' x := by
    intro x ne_g ne_p side'
    rw [h2_child, if_neg fun both => ne_p both.2, if_neg fun both => ne_g both.2]
  have h2_parent_away : ∀ {x}, inner.root ≠ some x → h2.parent x = h.parent x := by
    intro x ne
    rw [h2_parent, if_neg ne]
  have frames2 : RepFrames h2 above (some g) := by
    refine frames.congr (fun x member => h2_child_away ?_ ?_) (fun x member => h2_parent_away ?_) h2_root
    · exact fun same => g_off (same ▸ member)
    · exact fun same => p_off (same ▸ member)
    · exact fun same => inner_off x (root_mem same) member
  have g_parent2 : h2.parent g = ownerOf above := by
    rw [h2_parent_away fun same => g_off_inner (root_mem same)]
    exact g_parent
  obtain ⟨frames3, parents3, children3, colour3⟩ :=
    changeNode_spec frames2 g_parent2 g_off p_off nodupFrames
  -- The final parents and children.
  have parent4 : ∀ x, ((changeNode h2 g p).setParent g (some p)).parent x
      = if x = g then some p else if x = p then ownerOf above else h2.parent x := by
    intro x
    simp only [BbLinks.setParent, parents3, Function.update_apply]
  have child4 : ∀ x ∉ frameValues above, ∀ side',
      ((changeNode h2 g p).setParent g (some p)).child side' x = h2.child side' x := by
    intro x off side'
    rw [child_setParent, children3 x off]
  have root4 : ((changeNode h2 g p).setParent g (some p)).colour = h.colour := by
    rw [BbLinks.setParent, colour3, h2_colour]
  have frames4 : RepFrames ((changeNode h2 g p).setParent g (some p)) above (some p) := by
    refine frames3.congr (fun _ _ side' => by rw [child_setParent]) (fun x member => ?_) rfl
    have ne : x ≠ g := fun same => g_off (same ▸ member)
    exact Function.update_of_ne ne _ _
  generalize (changeNode h2 g p).setParent g (some p) = h4 at run parent4 child4 root4 frames4
  have away : ∀ x ∉ frameValues above, x ≠ g → x ≠ p →
      (∀ side', h4.child side' x = h.child side' x) ∧
        (inner.root ≠ some x → h4.parent x = h.parent x) := by
    intro x off ne_g ne_p
    refine ⟨fun side' => (child4 x off side').trans (h2_child_away ne_g ne_p side'), fun notRoot => ?_⟩
    rw [parent4, if_neg ne_g, if_neg ne_p, h2_parent_away notRoot]
  have outer_away := fun x inOuter => away x (outer_off x inOuter)
    (fun same => g_off_outer (same ▸ inOuter)) (fun same => p_off_outer (same ▸ inOuter))
  have inner_away := fun x inInner => away x (inner_off x inInner)
    (fun same => g_off_inner (same ▸ inInner)) (fun same => p_off_inner (same ▸ inInner))
  have other_away := fun x inOther => away x (other_off x inOther)
    (fun same => g_off_other (same ▸ inOther))
    (other_rest x inOther p (Or.inl rfl))
  refine ⟨h4, run, ⟨?_, ?_⟩, root4⟩
  · rw [rep_fill, rep_fill, root_fill]
    refine ⟨?_, ?_, ?_, ?_, ?_, ?_, ?_, ?_, ?_⟩
    · rw [parent4, if_neg (Ne.symm g_ne_p), if_pos rfl]
    · rw [child4 p p_off, h2_child, if_neg fun both => Side.flip_ne side both.1.symm,
        if_neg fun both => g_ne_p both.2.symm]
      exact p_outer
    · rw [child4 p p_off, h2_child, if_pos ⟨rfl, rfl⟩]
    · refine repOuter.congr (fun x member => (outer_away x member).1) fun x member => ?_
      exact (outer_away x member).2 fun same => inner_outer x (root_mem same) x member rfl
    · rw [parent4, if_pos rfl]
    · rw [child4 g g_off, h2_child, if_neg fun both => Side.flip_ne side both.1.symm, if_pos ⟨rfl, rfl⟩]
    · rw [child4 g g_off, h2_child, if_neg fun both => g_ne_p both.2,
        if_neg fun both => Side.flip_ne side both.1]
      exact g_other
    · refine repInner.reparent nodupInner (fun x member => (inner_away x member).1)
        (fun x member => (inner_away x member).2) fun x isRoot => ?_
      have ne_g : x ≠ g := fun same => g_off_inner (same ▸ root_mem isRoot)
      have ne_p : x ≠ p := fun same => p_off_inner (same ▸ root_mem isRoot)
      rw [parent4, if_neg ne_g, if_neg ne_p, h2_parent, if_pos isRoot]
    · refine repOther.congr (fun x member => (other_away x member).1) fun x member => ?_
      exact (other_away x member).2 fun same => other_rest x member x (Or.inr (Or.inl (root_mem same))) rfl
  · rw [root_fill]
    exact frames4

/-! ### Colours -/

/-- The blocks have the colours of the tree. -/
def Painted (h : BbLinks) : ColourTree Ptr → Prop
  | .nil => True
  | .node colour left p right => h.colour p = colour ∧ Painted h left ∧ Painted h right

/-- The blocks around a place have the colours of the frames. -/
def PaintedFrames (h : BbLinks) (above : List (Frame Ptr)) : Prop :=
  ∀ f ∈ above, h.colour f.value = f.colour ∧ Painted h f.sibling

theorem painted_fill (h : BbLinks) (f : Frame Ptr) (t : ColourTree Ptr) :
    Painted h (f.fill t) ↔ h.colour f.value = f.colour ∧ Painted h f.sibling ∧ Painted h t := by
  obtain ⟨side, colour, value, sibling⟩ := f
  cases side with
  | left =>
    simp only [Frame.fill, Painted]
    tauto
  | right => exact Iff.rfl

theorem painted_plug (h : BbLinks) : ∀ (above : List (Frame Ptr)) (t : ColourTree Ptr),
    Painted h (plug above t) ↔ PaintedFrames h above ∧ Painted h t
  | [], t => by simp [plug, PaintedFrames]
  | f :: above, t => by
      rw [plug, painted_plug h above, painted_fill, PaintedFrames, PaintedFrames, List.forall_mem_cons]
      tauto

theorem Painted.congr : ∀ {t : ColourTree Ptr}, Painted h t → (∀ x ∈ t.inorder, h'.colour x = h.colour x) → Painted h' t
  | .nil, _, _ => trivial
  | .node colour left p right, painted, same => by
      obtain ⟨here, paintedLeft, paintedRight⟩ := painted
      simp only [ColourTree.inorder, List.mem_append, List.mem_cons] at same
      exact ⟨(same p (Or.inr (Or.inl rfl))).trans here,
        paintedLeft.congr fun x member => same x (Or.inl member),
        paintedRight.congr fun x member => same x (Or.inr (Or.inr member))⟩

theorem PaintedFrames.congr (painted : PaintedFrames h above)
    (same : ∀ x ∈ frameValues above, h'.colour x = h.colour x) : PaintedFrames h' above := by
  intro f member
  have inFrame : ∀ x, x ∈ f.value :: f.sibling.inorder → x ∈ frameValues above :=
    fun x inner => List.mem_flatMap.2 ⟨f, member, inner⟩
  exact ⟨(same _ (inFrame _ List.mem_cons_self)).trans (painted f member).1,
    (painted f member).2.congr fun x inner => same x (inFrame x (List.mem_cons_of_mem _ inner))⟩

theorem rep_paint (h : BbLinks) (owner : Option Ptr) (colour : Colour) (t : ColourTree Ptr) :
    Rep h owner (t.paint colour) ↔ Rep h owner t := by
  cases t <;> exact Iff.rfl

theorem root_paint (colour : Colour) (t : ColourTree Ptr) : (t.paint colour).root = t.root := by
  cases t <;> rfl

theorem RepAt.setColour (rep : RepAt h above t) (bb : Ptr) (colour : Colour) : RepAt (h.setColour bb colour) above t :=
  ⟨rep.1.congr (fun _ _ side => by rw [child_setColour]) fun _ _ => rfl,
    rep.2.congr (fun _ _ side => by rw [child_setColour]) (fun _ _ => rfl) rfl⟩

/-! ### Repair -/

theorem fill_flip (side : Side) (colour : Colour) (p : Ptr) (first second : ColourTree Ptr) :
    Frame.fill ⟨side.flip, colour, p, second⟩ first = Frame.fill ⟨side, colour, p, first⟩ second := by
  cases side <;> rfl

section Rotation

variable {h : BbLinks} {above : List (Frame Ptr)} {side side' : Side} {g p x : Ptr}
  {inner other t : ColourTree Ptr} {cg cp : Colour}

theorem parents_of_repAt (rep : RepAt h above (Frame.fill ⟨side, cg, g, other⟩ (Frame.fill ⟨side', cp, p, inner⟩ t)))
    (isRoot : t.root = some x) : h.parent x = some p ∧ h.parent p = some g ∧
      h.child side g = some p ∧ h.child side.flip g = other.root ∧ h.child side' p = some x ∧
      h.child side'.flip p = inner.root := by
  obtain ⟨repTree, _⟩ := rep
  rw [rep_fill, rep_fill, root_fill, isRoot] at repTree
  obtain ⟨_, g_child, g_other, ⟨p_parent, p_child, p_inner, repT, _⟩, _⟩ := repTree
  refine ⟨?_, p_parent, g_child, g_other, p_child, p_inner⟩
  cases t with
  | nil => cases isRoot
  | node _ _ _ _ =>
    cases isRoot
    exact repT.1

theorem rotateGrandparent_spec (rep : RepAt h above (Frame.fill ⟨side, cg, g, other⟩ (Frame.fill ⟨side, cp, p, inner⟩ t)))
    (isRoot : t.root = some x) (nodup : (frameValues above ++
      (g :: other.inorder ++ (p :: inner.inorder ++ t.inorder))).Nodup) :
    ∃ h', rotateGrandparent h x = some h' ∧ RepAt h' above
        (Frame.fill ⟨side, .black, p, Frame.fill ⟨side, .red, g, other⟩ inner⟩ t) ∧
      h'.colour = ((h.setColour p .black).setColour g .red).colour := by
  obtain ⟨x_parent, p_parent, g_child, g_other, p_child, p_inner⟩ := parents_of_repAt rep isRoot
  obtain ⟨h', run, rep', colour⟩ := rotateUp_spec .red .black
    ((rep.setColour p .black).setColour g .red) nodup
  refine ⟨h', ?_, rep', colour⟩
  rw [← run]
  simp only [rotateGrandparent, bbGrandparent, x_parent, p_parent, Option.bind_eq_bind,
    Option.bind_some]
  cases side with
  | left =>
    have both : h.left p = some x ∧ h.left g = some p := ⟨p_child, g_child⟩
    exact if_pos both
  | right =>
    have notLeft : ¬(h.left p = some x ∧ h.left g = some p) := by
      rintro ⟨_, isLeft⟩
      have inOther : p ∈ other.inorder := root_mem (g_other.symm.trans isLeft)
      simp only [List.nodup_append, List.nodup_cons, List.mem_append, List.mem_cons, not_or,
        List.cons_append] at nodup
      exact nodup.2.1.2.2.2 p inOther p (Or.inl rfl) rfl
    exact if_neg notLeft

theorem straighten_outer (rep : RepAt h above (Frame.fill ⟨side, cg, g, other⟩ (Frame.fill ⟨side, cp, p, inner⟩ t)))
    (isRoot : t.root = some x) (nodup : (frameValues above ++
      (g :: other.inorder ++ (p :: inner.inorder ++ t.inorder))).Nodup) : straighten h x = some (h, x) := by
  obtain ⟨x_parent, p_parent, g_child, g_other, p_child, p_inner⟩ := parents_of_repAt rep isRoot
  simp only [List.nodup_append, List.nodup_cons, List.mem_append, List.mem_cons, not_or,
    List.cons_append] at nodup
  obtain ⟨_, ⟨_, _, ⟨_, _, _, inner_t⟩, other_rest⟩, _⟩ := nodup
  have notInner : h.child side.flip p ≠ some x := fun same =>
    inner_t x (root_mem (p_inner.symm.trans same)) x (root_mem isRoot) rfl
  have notOther : h.child side.flip g ≠ some p := fun same =>
    other_rest p (root_mem (g_other.symm.trans same)) p (Or.inl rfl) rfl
  simp only [straighten, bbGrandparent, x_parent, p_parent, Option.bind_eq_bind, Option.bind_some]
  cases side with
  | left =>
    have noFirst : ¬(h.right p = some x ∧ h.left g = some p) := fun both => notInner both.1
    have noSecond : ¬(h.left p = some x ∧ h.right g = some p) := fun both => notOther both.2
    rw [if_neg noFirst, if_neg noSecond]
    rfl
  | right =>
    have noFirst : ¬(h.right p = some x ∧ h.left g = some p) := fun both => notOther both.2
    have noSecond : ¬(h.left p = some x ∧ h.right g = some p) := fun both => notInner both.1
    rw [if_neg noFirst, if_neg noSecond]
    rfl

/-- An inner grandchild is rotated above its parent, which becomes the outer grandchild. -/
theorem straighten_inner {near far : ColourTree Ptr} {c : Colour} (rep : RepAt h above (Frame.fill ⟨side, cg, g, other⟩
      (Frame.fill ⟨side.flip, cp, p, inner⟩ (Frame.fill ⟨side.flip, c, x, near⟩ far))))
    (nodup : (frameValues above ++ (g :: other.inorder ++
      (p :: inner.inorder ++ (Frame.fill ⟨side.flip, c, x, near⟩ far).inorder))).Nodup) :
    ∃ h', straighten h x = some (h', p) ∧ RepAt h' above (Frame.fill ⟨side, cg, g, other⟩
        (Frame.fill ⟨side, c, x, far⟩ (Frame.fill ⟨side.flip, cp, p, inner⟩ near))) ∧ h'.colour = h.colour := by
  obtain ⟨x_parent, p_parent, g_child, g_other, p_child, p_inner⟩ :=
    parents_of_repAt rep (root_fill _ _)
  have lower : (frameValues (⟨side, cg, g, other⟩ :: above) ++
      (p :: inner.inorder ++ (x :: near.inorder ++ far.inorder))).Nodup := by
    refine (List.Perm.nodup_iff ?_).1 nodup
    rw [frameValues_cons]
    refine (List.perm_append_comm_assoc _ _ _).trans ?_
    rw [List.append_assoc]
    exact List.Perm.append_left _ (List.Perm.append_left _
      (List.Perm.append_left _ (Frame.inorder_fill_perm _ _)))
  obtain ⟨h', run, rep', colour⟩ := rotateUp_spec cp c
    ((repAt_cons h _ above _).2 rep) lower
  rw [fill_flip side c x, repAt_cons] at rep'
  refine ⟨h', ?_, rep', colour⟩
  have p_child' : h'.child side x = some p := by
    have repTree := rep'.1
    rw [rep_fill, rep_fill, root_fill, root_fill] at repTree
    exact repTree.2.2.2.1.2.1
  simp only [straighten, bbGrandparent, x_parent, p_parent, Option.bind_eq_bind, Option.bind_some]
  cases side with
  | left =>
    have first : h.right p = some x ∧ h.left g = some p := ⟨p_child, g_child⟩
    have below : h'.left x = some p := p_child'
    rw [if_pos first, rotateLeft_eq, show rotateUp .right h p = some h' from run, Option.bind_some,
      below]
    rfl
  | right =>
    have noFirst : ¬(h.right p = some x ∧ h.left g = some p) := by
      rintro ⟨same, _⟩
      have inInner : x ∈ inner.inorder := root_mem (p_inner.symm.trans same)
      simp only [List.nodup_append, List.nodup_cons, List.mem_append, List.mem_cons, not_or,
        List.cons_append] at lower
      exact lower.2.1.2.2.2 x inInner x (Or.inl rfl) rfl
    have second : h.left p = some x ∧ h.right g = some p := ⟨p_child, g_child⟩
    have below : h'.right x = some p := p_child'
    rw [if_neg noFirst, if_pos second, rotateRight_eq,
      show rotateUp .left h p = some h' from run, Option.bind_some, below]
    rfl

end Rotation

theorem nodup_inner {side : Side} {g p : Ptr} {other inner near far : ColourTree Ptr} {c cp : Colour}
    (nodup : (frameValues above ++ (g :: other.inorder ++
      (p :: inner.inorder ++ (Frame.fill ⟨side, c, x, near⟩ far).inorder))).Nodup) :
    (frameValues above ++ (g :: other.inorder ++
      (x :: far.inorder ++ (Frame.fill ⟨side, cp, p, inner⟩ near).inorder))).Nodup := by
  refine (List.Perm.nodup_iff (List.Perm.append_left _ (List.Perm.append_left _ ?_))).1 nodup
  refine (List.Perm.append_left _ (Frame.inorder_fill_perm _ _)).trans ?_
  refine List.Perm.trans ?_ (List.Perm.append_left _ (Frame.inorder_fill_perm _ _)).symm
  refine List.perm_iff_count.2 fun a => ?_
  simp only [List.cons_append, List.count_cons, List.count_append]
  omega

theorem nodup_place (nodup : (plug (f :: g :: above) t).inorder.Nodup) : (frameValues above ++
      (g.value :: g.sibling.inorder ++ (f.value :: f.sibling.inorder ++ t.inorder))).Nodup := by
  refine (List.Perm.nodup_iff ?_).1 nodup
  refine (inorder_plug_perm above (g.fill (f.fill t))).trans (List.Perm.append_left _ ?_)
  exact (g.inorder_fill_perm _).trans (List.Perm.append_left _ (f.inorder_fill_perm t))

theorem rotate_spec {left right : ColourTree Ptr} (rep : RepAt h (f :: g :: above) (.node .red left x right))
    (painted : Painted h (plug (f :: g :: above) (.node .red left x right)))
    (nodup : (plug (f :: g :: above) (.node .red left x right)).inorder.Nodup) (isRed : f.colour = .red) :
    ∃ h', rotateRepair h x = some h' ∧ RepAt h' [] (plug above (rotated f g left x right)) ∧
      Painted h' (plug above (rotated f g left x right)) := by
  rw [repAt_cons, repAt_cons] at rep
  have place := nodup_place nodup
  rw [plug, plug, painted_plug, painted_fill, painted_fill] at painted
  obtain ⟨paintedAbove, _, paintedG, paintedF, paintedSibling, _, paintedLeft, paintedRight⟩ := painted
  -- Only `g` and the new root of the rotated part change their colours.
  have keep : ∀ (a : Ptr) (h' : BbLinks), a = f.value ∨ a = x →
      h'.colour = ((h.setColour a .black).setColour g.value .red).colour →
        PaintedFrames h' above ∧ Painted h' f.sibling ∧ Painted h' g.sibling ∧ Painted h' left ∧
          Painted h' right ∧ h'.colour g.value = .red ∧ h'.colour a = .black ∧
          (x ≠ a → h'.colour x = .red) ∧ (f.value ≠ a → h'.colour f.value = .red) := by
    intro a h' isA colour
    simp only [ColourTree.inorder, List.nodup_append, List.nodup_cons, List.mem_append, List.mem_cons, not_or,
      List.cons_append] at place
    obtain ⟨_, ⟨⟨g_other, g_f, g_inner, g_left, g_x, g_right⟩, _, ⟨⟨f_inner, f_left, f_x, f_right⟩, _,
      ⟨_, ⟨x_right, _⟩, left_x⟩, inner_t⟩, other_rest⟩, above_rest⟩ := place
    have colours : ∀ z, h'.colour z
        = if z = g.value then .red else if z = a then .black else h.colour z := by
      intro z
      rw [colour]
      simp only [BbLinks.setColour, Function.update_apply]
    have same : ∀ {z}, z ≠ g.value → z ≠ f.value → z ≠ x → h'.colour z = h.colour z := by
      intro z ne_g ne_f ne_x
      have ne_a : z ≠ a := by
        rcases isA with rfl | rfl
        · exact ne_f
        · exact ne_x
      rw [colours, if_neg ne_g, if_neg ne_a]
    refine ⟨paintedAbove.congr fun z member => same ?_ ?_ ?_,
      paintedSibling.congr fun z member => same ?_ ?_ ?_,
      paintedG.congr fun z member => same ?_ ?_ ?_,
      paintedLeft.congr fun z member => same ?_ ?_ ?_,
      paintedRight.congr fun z member => same ?_ ?_ ?_, ?_, ?_, ?_, ?_⟩
    · exact above_rest z member _ (Or.inl rfl)
    · exact above_rest z member _ (Or.inr (Or.inr (Or.inl rfl)))
    · exact above_rest z member _ (Or.inr (Or.inr (Or.inr (Or.inr (Or.inr (Or.inl rfl))))))
    · exact fun eq => g_inner (eq ▸ member)
    · exact fun eq => f_inner (eq ▸ member)
    · exact inner_t z member x (Or.inr (Or.inl rfl))
    · exact fun eq => g_other (eq ▸ member)
    · exact other_rest z member _ (Or.inl rfl)
    · exact other_rest z member _ (Or.inr (Or.inr (Or.inr (Or.inl rfl))))
    · exact fun eq => g_left (eq ▸ member)
    · exact fun eq => f_left (eq ▸ member)
    · exact left_x z member x (Or.inl rfl)
    · exact fun eq => g_right (eq ▸ member)
    · exact fun eq => f_right (eq ▸ member)
    · exact fun eq => x_right (eq ▸ member)
    · rw [colours, if_pos rfl]
    · have ne_g : a ≠ g.value := by
        rcases isA with rfl | rfl
        · exact Ne.symm g_f
        · exact Ne.symm g_x
      rw [colours, if_neg ne_g, if_pos rfl]
    · intro ne_a
      rw [colours, if_neg (Ne.symm g_x), if_neg ne_a]
      assumption
    · intro ne_a
      rw [colours, if_neg (Ne.symm g_f), if_neg ne_a]
      exact paintedF.trans isRed
  obtain ⟨sideF, colourF, p, inner⟩ := f
  obtain ⟨sideG, colourG, g, other⟩ := g
  cases isRed
  have x_ne_p : p ≠ x := by
    simp only [ColourTree.inorder, List.nodup_append, List.nodup_cons, List.mem_append, List.mem_cons, not_or,
      List.cons_append] at place
    exact place.2.1.2.2.1.1.2.2.1
  rcases Side.eq_or_eq_flip sideG sideF with same | flipped
  · -- An outer grandchild: one rotation.
    subst same
    have stay := straighten_outer rep rfl place
    obtain ⟨h', run, rep', colour⟩ := rotateGrandparent_spec rep rfl place
    obtain ⟨outside, isInner, isOther, isLeft, isRight, red_g, black_p, red_x, _⟩ :=
      keep p h' (Or.inl rfl) colour
    have result : rotated ⟨sideF, .red, p, inner⟩ ⟨sideF, colourG, g, other⟩ left x right
        = Frame.fill ⟨sideF, .black, p, Frame.fill ⟨sideF, .red, g, other⟩ inner⟩
            (.node .red left x right) := by
      cases sideF <;> rfl
    refine ⟨h', ?_, ?_, ?_⟩
    · rw [rotateRepair, stay]
      exact run
    · rw [repAt_plug, result]
      exact rep'
    · rw [painted_plug, result, painted_fill, painted_fill]
      exact ⟨outside, black_p, ⟨red_g, isOther, isInner⟩, red_x (Ne.symm x_ne_p), isLeft, isRight⟩
  · -- An inner grandchild: it is rotated up first.
    subst flipped
    obtain ⟨near, far, split, result, isBoth⟩ : ∃ near far : ColourTree Ptr,
        ColourTree.node .red left x right = Frame.fill ⟨sideG.flip, .red, x, near⟩ far ∧
        rotated ⟨sideG.flip, .red, p, inner⟩ ⟨sideG, colourG, g, other⟩ left x right
          = Frame.fill ⟨sideG, .black, x, Frame.fill ⟨sideG, .red, g, other⟩ far⟩
              (Frame.fill ⟨sideG.flip, .red, p, inner⟩ near) ∧
        ((near = left ∧ far = right) ∨ (near = right ∧ far = left)) := by
      cases sideG with
      | left => exact ⟨left, right, rfl, rfl, Or.inl ⟨rfl, rfl⟩⟩
      | right => exact ⟨right, left, rfl, rfl, Or.inr ⟨rfl, rfl⟩⟩
    rw [split] at rep place
    obtain ⟨h1, up, rep1, colour1⟩ := straighten_inner rep place
    obtain ⟨h', run, rep', colour⟩ := rotateGrandparent_spec rep1 (root_fill _ _) (nodup_inner place)
    obtain ⟨outside, isInner, isOther, isLeft, isRight, red_g, black_x, _, red_p⟩ :=
      keep x h' (Or.inr rfl) (by rw [colour]; simp only [BbLinks.setColour, colour1])
    refine ⟨h', ?_, ?_, ?_⟩
    · rw [rotateRepair, up]
      exact run
    · rw [repAt_plug, result]
      exact rep'
    · have isNear : Painted h' near ∧ Painted h' far := by
        rcases isBoth with ⟨rfl, rfl⟩ | ⟨rfl, rfl⟩
        · exact ⟨isLeft, isRight⟩
        · exact ⟨isRight, isLeft⟩
      rw [painted_plug, result, painted_fill, painted_fill, painted_fill]
      exact ⟨outside, black_x, ⟨red_g, isOther, isNear.2⟩, red_p x_ne_p, isInner, isNear.1⟩

theorem redUncle_spec (rep : RepAt h (f :: g :: above) t) (painted : Painted h g.sibling) (isRoot : t.root = some x)
    (nodup : (plug (f :: g :: above) t).inorder.Nodup) :
    redUncle h x = if g.sibling.rootColour = .red then g.sibling.root else none := by
  rw [repAt_cons, repAt_cons] at rep
  have place := nodup_place nodup
  obtain ⟨x_parent, p_parent, g_child, g_other, _, _⟩ := parents_of_repAt rep isRoot
  have uncle : bbUncle h x = g.sibling.root := by
    simp only [bbUncle, bbGrandparent, x_parent, p_parent]
    cases side : g.side with
    | left =>
      rw [side] at g_child g_other
      have isLeft : some f.value = h.left g.value := g_child.symm
      rw [if_pos isLeft]
      exact g_other
    | right =>
      rw [side] at g_child g_other
      have notLeft : some f.value ≠ h.left g.value := by
        intro same
        have inOther : f.value ∈ g.sibling.inorder := root_mem (g_other.symm.trans same.symm)
        simp only [List.nodup_append, List.nodup_cons, List.mem_append, List.mem_cons, not_or,
          List.cons_append] at place
        exact place.2.1.2.2.2 _ inOther _ (Or.inl rfl) rfl
      rw [if_neg notLeft]
      exact g_other
  rw [redUncle, uncle]
  cases isSibling : g.sibling with
  | nil => rfl
  | node colour left u right =>
    rw [isSibling] at painted
    simp only [ColourTree.root, ColourTree.rootColour, painted.1]
    rfl

/-- With a red uncle, the parent and the uncle become black and the grandparent red. -/
theorem recolour_spec {left right : ColourTree Ptr} {u : Ptr} (rep : RepAt h (f :: g :: above) (.node .red left x right))
    (painted : Painted h (plug (f :: g :: above) (.node .red left x right)))
    (nodup : (plug (f :: g :: above) (.node .red left x right)).inorder.Nodup) (isUncle : g.sibling.root = some u) :
    let h' := ((h.setColour f.value .black).setColour u .black).setColour g.value .red
    let t := Frame.fill { g with colour := .red, sibling := g.sibling.paint .black }
      (Frame.fill { f with colour := .black } (.node .red left x right))
    RepAt h' above t ∧ Painted h' (plug above t) ∧ (plug above t).inorder.Nodup := by
  intro h' t
  have place := nodup_place nodup
  refine ⟨?_, ?_, ?_⟩
  · have rep' := ((rep.setColour f.value .black).setColour u .black).setColour g.value .red
    rw [repAt_cons, repAt_cons] at rep'
    obtain ⟨repTree, frames⟩ := rep'
    rw [root_fill] at frames
    rw [rep_fill, rep_fill, root_fill] at repTree
    refine ⟨?_, by rw [root_fill]; exact frames⟩
    rw [rep_fill, rep_fill, root_fill]
    simp only [rep_paint, root_paint]
    exact repTree
  · rw [plug, plug, painted_plug, painted_fill, painted_fill] at painted
    obtain ⟨paintedAbove, _, paintedG, _, paintedF, here, paintedLeft, paintedRight⟩ := painted
    have u_other := root_mem isUncle
    simp only [ColourTree.inorder, List.nodup_append, List.nodup_cons, List.mem_append, List.mem_cons, not_or,
      List.cons_append] at place
    obtain ⟨_, ⟨⟨g_other, g_f, g_inner, g_left, g_x, g_right⟩, nodupOther,
      ⟨⟨f_inner, f_left, f_x, f_right⟩, _⟩, other_rest⟩, above_rest⟩ := place
    have colours : ∀ z, h'.colour z
        = if z = g.value then .red else if z = u then .black else if z = f.value then .black
          else h.colour z := by
      intro z
      simp only [h', BbLinks.setColour, Function.update_apply]
    have same : ∀ {z}, z ≠ g.value → z ≠ u → z ≠ f.value → h'.colour z = h.colour z := by
      intro z ne_g ne_u ne_f
      rw [colours, if_neg ne_g, if_neg ne_u, if_neg ne_f]
    rw [painted_plug, painted_fill, painted_fill]
    refine ⟨paintedAbove.congr fun z member => same ?_ ?_ ?_, ?_, ?_, ?_,
      paintedF.congr fun z member => same ?_ ?_ ?_, ?_,
      paintedLeft.congr fun z member => same ?_ ?_ ?_,
      paintedRight.congr fun z member => same ?_ ?_ ?_⟩
    · exact above_rest z member _ (Or.inl rfl)
    · exact above_rest z member u (Or.inr (Or.inl u_other))
    · exact above_rest z member _ (Or.inr (Or.inr (Or.inl rfl)))
    · rw [colours, if_pos rfl]
    · -- The uncle is black, the blocks below it are as before.
      cases isSibling : g.sibling with
      | nil => trivial
      | node colour uncleLeft v uncleRight =>
        rw [isSibling] at isUncle paintedG g_other nodupOther other_rest
        cases isUncle
        simp only [ColourTree.inorder, List.nodup_append, List.nodup_cons, List.mem_append, List.mem_cons,
          not_or] at g_other nodupOther other_rest
        obtain ⟨_, ⟨u_right, _⟩, left_u⟩ := nodupOther
        refine ⟨?_, paintedG.2.1.congr fun z member => same ?_ ?_ ?_,
          paintedG.2.2.congr fun z member => same ?_ ?_ ?_⟩
        · rw [colours, if_neg (Ne.symm g_other.2.1), if_pos rfl]
        · exact fun eq => g_other.1 (eq ▸ member)
        · exact left_u z member u (Or.inl rfl)
        · exact other_rest z (Or.inl member) _ (Or.inl rfl)
        · exact fun eq => g_other.2.2 (eq ▸ member)
        · exact fun eq => u_right (eq ▸ member)
        · exact other_rest z (Or.inr (Or.inr member)) _ (Or.inl rfl)
    · rw [colours, if_neg (Ne.symm g_f)]
      split <;> simp
    · exact fun eq => g_inner (eq ▸ member)
    · exact Ne.symm (other_rest u u_other z (Or.inr (Or.inl member)))
    · exact fun eq => f_inner (eq ▸ member)
    · rw [same (Ne.symm g_x) (Ne.symm (other_rest u u_other x (by tauto))) (Ne.symm f_x)]
      exact here
    · exact fun eq => g_left (eq ▸ member)
    · exact Ne.symm (other_rest u u_other z (by tauto))
    · exact fun eq => f_left (eq ▸ member)
    · exact fun eq => g_right (eq ▸ member)
    · exact Ne.symm (other_rest u u_other z (by tauto))
    · exact fun eq => f_right (eq ▸ member)
  · refine (List.Perm.nodup_iff ((inorder_plug_perm above t).trans (List.Perm.append_left _ ?_))).2 place
    have frameG := Frame.inorder_fill_perm { g with colour := .red, sibling := g.sibling.paint .black }
      (Frame.fill { f with colour := .black } (.node .red left x right))
    rw [inorder_paint] at frameG
    exact frameG.trans (List.Perm.append_left _ (Frame.inorder_fill_perm _ _))

/-- The second loop of `bb_insert` repairs the tree: the induction is on the frames above the red block
that may be below another red one. -/
theorem fixLoop_spec : ∀ (above : List (Frame Ptr)) (fuel : Nat) {h : BbLinks} {left right result : ColourTree Ptr}
    {x : Ptr}, above.length < fuel → RepAt h above (.node .red left x right) →
      Painted h (plug above (.node .red left x right)) → (plug above (.node .red left x right)).inorder.Nodup →
          fixUp above (.node .red left x right) = some result →
            ∃ h', fixLoop fuel h x = some h' ∧ RepAt h' [] result ∧ Painted h' result
  | [], 0, _, _, _, _, _, short, _, _, _, _ | _ :: _, 0, _, _, _, _, _, short, _, _, _, _ =>
    absurd short (Nat.not_lt_zero _)
  | [], fuel + 1, h, left, right, result, x, _, rep, painted, nodup, fixed => by
      cases fixed
      have noParent : h.parent x = none := rep.1.1
      refine ⟨h.setColour x .black, by simp only [fixLoop, noParent], ?_, ?_⟩
      · obtain ⟨repTree, isRoot⟩ := rep.setColour x .black
        exact ⟨(rep_paint _ _ _ _).2 repTree, by rw [root_paint]; exact isRoot⟩
      · obtain ⟨_, paintedLeft, paintedRight⟩ := painted
        simp only [plug, ColourTree.inorder, List.nodup_append, List.nodup_cons, List.mem_cons] at nodup
        obtain ⟨_, ⟨x_right, _⟩, left_x⟩ := nodup
        refine ⟨Function.update_self _ _ _, paintedLeft.congr fun z member => ?_,
          paintedRight.congr fun z member => ?_⟩
        · have ne : z ≠ x := left_x z member x (Or.inl rfl)
          exact Function.update_of_ne ne _ _
        · have ne : z ≠ x := fun same => x_right (same ▸ member)
          exact Function.update_of_ne ne _ _
  | f :: above, fuel + 1, h, left, right, result, x, short, rep, painted, nodup, fixed => by
      have isParent : h.parent x = some f.value := rep.1.1
      have colour : h.colour f.value = f.colour := by
        rw [plug, painted_plug, painted_fill] at painted
        exact painted.2.1
      cases isColour : f.colour with
      | black =>
        rw [isColour] at colour
        simp only [fixUp, isColour] at fixed
        cases fixed
        refine ⟨h, ?_, (repAt_plug h above _).2 ((repAt_cons h f above _).1 rep), painted⟩
        simp only [fixLoop, isParent, colour]
        rfl
      | red =>
        rw [isColour] at colour
        cases above with
        | nil =>
          simp only [fixUp, isColour] at fixed
          cases fixed
        | cons g above =>
          have paintedG : Painted h g.sibling := by
            rw [plug, plug, painted_plug, painted_fill] at painted
            exact painted.2.2.1
          have uncle := redUncle_spec rep paintedG rfl nodup
          have red_ne : ¬(Colour.red = .black) := by decide
          by_cases isRedUncle : g.sibling.rootColour = .red
          · -- The repair goes on at the grandparent.
            rw [if_pos isRedUncle] at uncle
            simp only [fixUp, isColour, if_pos isRedUncle] at fixed
            obtain ⟨u, isUncle⟩ : ∃ u, g.sibling.root = some u := by
              cases isSibling : g.sibling with
              | nil =>
                rw [isSibling] at isRedUncle
                cases isRedUncle
              | node _ _ u _ => exact ⟨u, rfl⟩
            obtain ⟨rep', painted', nodup'⟩ := recolour_spec rep painted nodup isUncle
            obtain ⟨grandLeft, grandRight, isNode⟩ : ∃ grandLeft grandRight : ColourTree Ptr,
                Frame.fill { g with colour := .red, sibling := g.sibling.paint .black }
                    (Frame.fill { f with colour := .black } (.node .red left x right))
                  = .node .red grandLeft g.value grandRight := by
              obtain ⟨sideG, _, _, _⟩ := g
              cases sideG with
              | left | right => exact ⟨_, _, rfl⟩
            rw [isNode] at rep' painted' nodup' fixed
            obtain ⟨h', run, done⟩ := fixLoop_spec above fuel
              (by simp only [List.length_cons] at short; omega) rep' painted' nodup' fixed
            refine ⟨h', ?_, done⟩
            rw [← run]
            have grandparent : bbGrandparent h x = some g.value := by
              have below := ((repAt_cons h f _ _).1 rep).1
              rw [rep_fill] at below
              simp only [bbGrandparent, isParent]
              exact below.1
            simp only [fixLoop, isParent, colour, if_neg red_ne, uncle, isUncle, grandparent]
          · rw [if_neg isRedUncle] at uncle
            simp only [fixUp, isColour, if_neg isRedUncle, Option.some.injEq] at fixed
            subst fixed
            obtain ⟨h', run, rep', painted'⟩ := rotate_spec rep painted nodup isColour
            refine ⟨h', ?_, rep', painted'⟩
            rw [← run]
            simp only [fixLoop, isParent, colour, if_neg red_ne, uncle]

/-! ### Insertion -/

/-- What the first loop of `bb_insert` has found: the place of a leaf, below the block `owner`. -/
structure Hung (start : Ptr → Int) (bb : Ptr) (h h' : BbLinks) (owner : Ptr) (whole : ColourTree Ptr)
    (above : List (Frame Ptr)) : Prop where
  isOwner : ownerOf above = some owner
  isPlace : plug above .nil = whole
  isBefore : ∀ x ∈ before above, start x ≤ start bb
  isAfter : ∀ x ∈ after above, start bb < start x
  frames : RepFrames h' above (some bb)
  parent : h'.parent = h.parent
  colour : h'.colour = h.colour
  children : ∀ x ∉ whole.inorder, ∀ side, h'.child side x = h.child side x

theorem hung_leaf {start : Ptr → Int} {bb : Ptr} (rep : RepAt h (f :: above) .nil)
    (nodup : (plug (f :: above) .nil).inorder.Nodup) (isBefore : ∀ x ∈ before (f :: above), start x ≤ start bb)
    (isAfter : ∀ x ∈ after (f :: above), start bb < start x) :
    Hung start bb h (h.setChild f.side f.value (some bb)) f.value (plug (f :: above) .nil) (f :: above) := by
  obtain ⟨_, parent, place, other, sibling, rest⟩ := rep
  have inFrames : (frameValues (f :: above)).Nodup := by
    have perm := inorder_plug_perm (f :: above) .nil
    rw [ColourTree.inorder, List.append_nil] at perm
    exact perm.nodup_iff.1 nodup
  rw [frameValues_cons, List.cons_append, List.nodup_cons, List.mem_append, not_or] at inFrames
  obtain ⟨⟨f_sibling, f_above⟩, _⟩ := inFrames
  have away : ∀ {z}, z ≠ f.value → ∀ side,
      (h.setChild f.side f.value (some bb)).child side z = h.child side z := by
    intro z ne side
    rw [child_setChild, if_neg fun both => ne both.2]
  refine ⟨rfl, rfl, isBefore, isAfter, ⟨?_, ?_, ?_, sibling.congr ?_ ?_, rest.congr ?_ ?_ ?_⟩, ?_, ?_, ?_⟩
  · rw [parent_setChild]
    exact parent
  · rw [child_setChild, if_pos ⟨rfl, rfl⟩]
  · rw [child_setChild, if_neg fun both => Side.flip_ne _ both.1]
    exact other
  · exact fun z member => away fun same => f_sibling (same ▸ member)
  · exact fun z member => by rw [parent_setChild]
  · exact fun z member => away fun same => f_above (same ▸ member)
  · exact fun z member => by rw [parent_setChild]
  · rw [root_setChild]
  · rw [parent_setChild]
  · rw [colour_setChild]
  · intro z outside side
    refine away (fun same => outside ?_) side
    rw [(inorder_plug_perm (f :: above) .nil).mem_iff, same, frameValues_cons]
    exact List.mem_cons_self

/-- The first loop of `bb_insert` goes down to the leaf where the block belongs: the induction is on the
tree below the place it has reached. -/
theorem insertLoop_spec (start : Ptr → Int) (bb : Ptr) : ∀ (t : ColourTree Ptr) (fuel : Nat)
    {h : BbLinks} {above : List (Frame Ptr)} {p : Ptr},
    t.inorder.length ≤ fuel → t.root = some p → RepAt h above t → (plug above t).inorder.Nodup →
      t.inorder.Pairwise (fun x y => start x < start y) →
        (∀ x ∈ before above, start x ≤ start bb) → (∀ x ∈ after above, start bb < start x) →
          ∃ h' owner above', insertLoop start bb fuel h p = some (h', owner) ∧
            Hung start bb h h' owner (plug above t) above'
  | .nil, _, _, _, _, _, isRoot, _, _, _, _, _ => by cases isRoot
  | .node colour left p right, 0, _, _, _, short, _, _, _, _, _, _ => by
      simp [ColourTree.inorder] at short
  | .node colour left p right, fuel + 1, h, above, q, short, isRoot, rep, nodup, sorted, isBefore,
      isAfter => by
      cases isRoot
      obtain ⟨_, isLeft, isRight, _, _⟩ := rep.1
      simp only [ColourTree.inorder, List.length_append, List.length_cons] at short
      simp only [ColourTree.inorder, List.pairwise_append, List.pairwise_cons, List.mem_cons] at sorted
      obtain ⟨sortedLeft, ⟨p_right, sortedRight⟩, left_rest⟩ := sorted
      by_cases less : start bb < start p
      · have rep' := (repAt_cons h ⟨.left, colour, p, right⟩ above left).2 rep
        have isAfter' : ∀ x ∈ after (⟨.left, colour, p, right⟩ :: above), start bb < start x := by
          intro x member
          simp only [after, List.cons_append, List.mem_cons, List.mem_append] at member
          rcases member with rfl | inRight | outside
          · exact less
          · exact Int.lt_trans less (p_right x inRight)
          · exact isAfter x outside
        cases left with
        | nil =>
          have isNone : h.left p = none := isLeft
          refine ⟨_, _, _, ?_, hung_leaf rep' nodup isBefore isAfter'⟩
          simp only [insertLoop, if_pos less, isNone]
          rfl
        | node c l x r =>
          have isSome : h.left p = some x := isLeft
          obtain ⟨h', owner, above', run, hung⟩ := insertLoop_spec start bb (.node c l x r) fuel
            (by omega) rfl rep' nodup sortedLeft isBefore isAfter'
          refine ⟨h', owner, above', ?_, hung⟩
          simp only [insertLoop, if_pos less, isSome]
          exact run
      · have rep' := (repAt_cons h ⟨.right, colour, p, left⟩ above right).2 rep
        have isBefore' : ∀ x ∈ before (⟨.right, colour, p, left⟩ :: above), start x ≤ start bb := by
          intro x member
          simp only [before, List.mem_append, List.mem_singleton] at member
          rcases member with (outside | inLeft) | rfl
          · exact isBefore x outside
          · have smaller := left_rest x inLeft p (Or.inl rfl)
            omega
          · omega
        cases right with
        | nil =>
          have isNone : h.right p = none := isRight
          refine ⟨_, _, _, ?_, hung_leaf rep' nodup isBefore' isAfter⟩
          simp only [insertLoop, if_neg less, isNone]
          rfl
        | node c l x r =>
          have isSome : h.right p = some x := isRight
          obtain ⟨h', owner, above', run, hung⟩ := insertLoop_spec start bb (.node c l x r) fuel
            (by omega) rfl rep' nodup sortedRight isBefore' isAfter
          refine ⟨h', owner, above', ?_, hung⟩
          simp only [insertLoop, if_neg less, isSome]
          exact run

/-- The links are a balanced search tree with a black root. -/
structure RbTree (start : Ptr → Int) (h : BbLinks) (t : ColourTree Ptr) : Prop where
  rep : RepAt h [] t
  painted : Painted h t
  balanced : ∃ n, IsBalanced t n
  rootBlack : t.rootColour = .black
  nodup : t.inorder.Nodup
  sorted : t.inorder.Pairwise fun x y => start x < start y

theorem bbInsert_spec {start : Ptr → Int} {fuel : Nat} {bb : Ptr} (tree : RbTree start h t)
    (enough : t.inorder.length ≤ fuel) (fresh : bb ∉ t.inorder) (other : ∀ x ∈ t.inorder, start x ≠ start bb)
    (noLeft : h.left bb = none) (noRight : h.right bb = none) :
    ∃ h' t' l r, bbInsert start fuel h bb = some h' ∧ RbTree start h' t' ∧
      t.inorder = l ++ r ∧ t'.inorder = l ++ bb :: r := by
  obtain ⟨h1, owner, above, descend, hung⟩ := insertLoop_spec start bb t fuel enough tree.rep.2 tree.rep
    tree.nodup tree.sorted (fun _ member => by cases member) (fun _ member => by cases member)
  have isPlace : plug above .nil = t := hung.isPlace
  have values : t.inorder.Perm (frameValues above) := by
    have perm := inorder_plug_perm above .nil
    rwa [isPlace, ColourTree.inorder, List.append_nil] at perm
  have offFrames : ∀ x ∈ frameValues above, x ≠ bb :=
    fun x member same => fresh (same ▸ values.mem_iff.2 member)
  have order : t.inorder = before above ++ after above := by
    have split := inorder_plug above .nil
    rwa [isPlace, ColourTree.inorder, List.append_nil] at split
  have order' : (plug above (.node .red .nil bb .nil)).inorder = before above ++ bb :: after above := by
    rw [inorder_plug]
    simp [ColourTree.inorder]
  have nodup' : (plug above (.node .red .nil bb .nil)).inorder.Nodup := by
    rw [order', List.perm_middle.nodup_iff, ← order, List.nodup_cons]
    exact ⟨fresh, tree.nodup⟩
  -- The new red leaf.
  have rep' : RepAt (h1.setParent bb (some owner)) above (.node .red .nil bb .nil) := by
    refine ⟨⟨?_, ?_, ?_, trivial, trivial⟩, hung.frames.congr ?_ ?_ rfl⟩
    · rw [hung.isOwner]
      exact Function.update_self _ _ _
    · exact (hung.children bb fresh .left).trans noLeft
    · exact (hung.children bb fresh .right).trans noRight
    · exact fun x _ side => by rw [child_setParent]
    · exact fun x member => Function.update_of_ne (offFrames x member) _ _
  have painted' : Painted ((h1.setParent bb (some owner)).setColour bb .red)
      (plug above (.node .red .nil bb .nil)) := by
    have before := tree.painted
    rw [← isPlace, painted_plug] at before
    rw [painted_plug]
    refine ⟨before.1.congr fun x member => ?_, Function.update_self _ _ _, trivial, trivial⟩
    have same : ((h1.setParent bb (some owner)).setColour bb .red).colour x = h1.colour x :=
      Function.update_of_ne (offFrames x member) _ _
    rw [same, hung.colour]
  obtain ⟨n, balanced⟩ := tree.balanced
  have rootBlack := tree.rootBlack
  rw [← isPlace] at balanced rootBlack
  obtain ⟨m, leaf, frames, _⟩ := framesBalanced_of_plug above .nil balanced rootBlack
  obtain ⟨t', k, fixed, balanced', rootBlack', inorder'⟩ :=
    fixUp_balanced above bb frames leaf leaf rfl rfl
  have short : above.length < fuel + 1 := by
    have bound := length_le_frameValues above
    rw [← values.length_eq] at bound
    omega
  obtain ⟨h', run, rep'', painted''⟩ := fixLoop_spec above (fuel + 1) short (rep'.setColour bb .red)
    painted' nodup' fixed
  rw [order'] at inorder'
  refine ⟨h', t', before above, after above, ?_, ⟨rep'', painted'', ⟨k, balanced'⟩, rootBlack', ?_, ?_⟩,
    order, inorder'⟩
  · simp only [bbInsert, descend]
    exact run
  · rw [inorder', ← order']
    exact nodup'
  · have sorted := tree.sorted
    rw [order] at sorted other
    rw [inorder']
    obtain ⟨sortedBefore, sortedAfter, across⟩ := List.pairwise_append.1 sorted
    refine List.pairwise_append.2 ⟨sortedBefore, List.pairwise_cons.2 ⟨hung.isAfter, sortedAfter⟩, ?_⟩
    intro x inBefore y member
    rcases List.mem_cons.1 member with rfl | inAfter
    · exact Int.lt_iff_le_and_ne.2
        ⟨hung.isBefore x inBefore, other x (List.mem_append_left _ inBefore)⟩
    · exact across x inBefore y inAfter

end MonoRuntime.BasicBlock
