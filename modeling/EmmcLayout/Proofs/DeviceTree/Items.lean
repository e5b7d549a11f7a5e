import EmmcLayout.Proofs.DeviceTree.Lookup

/-!
# What stands inside a written node

`Item` is a part of what stands inside a node: properties and nodes, in any order.  A name need not
fit for a node to be written, and then the tokens end there.  `Reading` says so of a list of
emissions and the tokens that reading it yields, and `exists_reading` that a written tree is read
like this from any point on.
-/

namespace EmmcLayout.DeviceTree

/-! ## Items -/

/-- A part of what stands inside a node: a property, or a node with what stands inside it. -/
inductive Item
  | property (name value : Bytes)
  | node (name : Bytes) (content : List Item)

namespace Item

mutual

/-- An item as it is written. -/
def emissions : Item → List Emission
  | property name value => [.property name value]
  | node name content => .beginNode name :: (forest content ++ [.endNode])

/-- Items written one after the other. -/
def forest : List Item → List Emission
  | [] => []
  | item :: items => item.emissions ++ forest items

end

/-- The properties among items, in order. -/
def properties : List Item → List (Bytes × Bytes)
  | [] => []
  | property name value :: items => (name, value) :: properties items
  | node _ _ :: items => properties items

/-- The nodes among items, in order, each with what stands inside it. -/
def children : List Item → List (Bytes × List Item)
  | [] => []
  | property _ _ :: items => children items
  | node name content :: items => (name, content) :: children items

theorem forest_property (name value : Bytes) (items : List Item) :
    forest (property name value :: items) = .property name value :: forest items := by
  rw [forest, emissions, List.singleton_append]

theorem forest_node (name : Bytes) (content items : List Item) :
    forest (node name content :: items) =
      .beginNode name :: (forest content ++ .endNode :: forest items) := by
  rw [forest, emissions, List.cons_append, List.append_assoc, List.singleton_append]

end Item

/-! ## Emissions that may not fit -/

variable {s s' : StringsBlock} {es : List Emission} {pos : Nat}

/-- A token to be written whose name has no NUL. -/
def Emission.ZeroFree : Emission → Prop
  | .beginNode name => 0 ∉ name
  | .property name _ => 0 ∉ name
  | .endNode => True
  | .endTree => True

instance : DecidablePred Emission.ZeroFree
  | .beginNode name => inferInstanceAs (Decidable (0 ∉ name))
  | .property name _ => inferInstanceAs (Decidable (0 ∉ name))
  | .endNode => inferInstanceAs (Decidable True)
  | .endTree => inferInstanceAs (Decidable True)

/-- These tokens are what reading the emissions yields.  A node whose name does not fit cannot be
read, and nothing is read behind it. -/
inductive Reading (s : StringsBlock) : List Emission → List Step → Prop
  | done {rest : List Step} : Reading s [] rest
  | read {e : Emission} {es : List Emission} {step : Step} {steps : List Step}
      (head : e.ReadsAs s step.token) (tail : Reading s es steps) :
      Reading s (e :: es) (step :: steps)
  | unread {name : Bytes} {es : List Emission} (long : maxNodeName ≤ name.length) :
      Reading s (.beginNode name :: es) []

/-- A whole device tree with these emissions, in which the names go behind those in `strings`. -/
def written (base : HeaderBase) (reservations : Bytes) (strings : StringsBlock)
    (es : List Emission) : Bytes :=
  assemble base reservations (emitAll strings es).1 (emitAll strings es).2.bytes

/-! ## The bytes of emissions -/

theorem emitAll_append (s : StringsBlock) (es es' : List Emission) :
    emitAll s (es ++ es') = ((emitAll s es).1 ++ (emitAll (emitAll s es).2 es').1,
      (emitAll (emitAll s es).2 es').2) := by
  induction es generalizing s with
  | nil => rfl
  | cons e es ih => rw [List.cons_append, emitAll_cons, emitAll_cons, ih, List.append_assoc]

theorem length_le_emit (s : StringsBlock) (name value : Bytes) :
    value.length ≤ (emit s (.property name value)).1.length := by
  simp only [emit, length_padded]
  refine Nat.le_trans ?_ (Bytes.le_align4 _)
  simp only [List.length_append]
  omega

theorem length_emit_mod (s : StringsBlock) (e : Emission) : (emit s e).1.length % 4 = 0 := by
  cases e with
  | beginNode name =>
      simp only [emit, length_padded]
      exact Bytes.align4_mod _
  | property name value =>
      simp only [emit, length_padded]
      exact Bytes.align4_mod _
  | endNode =>
      show (Bytes.be32 _).length % 4 = 0
      rw [Bytes.length_be32]
  | endTree =>
      show (Bytes.be32 _).length % 4 = 0
      rw [Bytes.length_be32]

theorem length_emitAll_mod (s : StringsBlock) (es : List Emission) :
    (emitAll s es).1.length % 4 = 0 := by
  induction es generalizing s with
  | nil => rfl
  | cons e es ih =>
      rw [emitAll_cons, List.length_append, Nat.add_mod, length_emit_mod, ih]

/-! ## Reading them back -/

/-- A name without a NUL among the bytes that a name may take is not read. -/
theorem Cursor.next_of_long {name : Bytes} (hname : 0 ∉ name) (hlong : maxNodeName ≤ name.length)
    (s : StringsBlock) (b : Bytes) (pos : Nat) :
    ∃ e c, (⟨(emit s (.beginNode name)).1 ++ b, pos⟩ : Cursor).next = (.error e, c) := by
  obtain ⟨pad, hpad⟩ : ∃ pad, (emit s (.beginNode name)).1 =
      Bytes.be32 Tag.beginNode.word ++ name ++ [0] ++ pad := ⟨_, rfl⟩
  obtain ⟨rest, hbytes⟩ : ∃ rest, (emit s (.beginNode name)).1 ++ b =
      Bytes.be32 Tag.beginNode.word ++ (name ++ rest) :=
    ⟨[0] ++ pad ++ b, by rw [hpad]; simp only [List.append_assoc]⟩
  have hnone : Bytes.terminated? ((name ++ rest).take maxNodeName) = none := by
    rw [List.take_append_of_le_length hlong, Bytes.terminated?, if_neg]
    exact fun hmem => hname (List.mem_of_mem_take hmem)
  refine ⟨.unterminatedText, ⟨name ++ rest, pos + 4⟩, ?_⟩
  rw [hbytes, next, word_be32]
  simp only [Tag.ofWord?_word, skipBytes_be32, nodeName, hnone]

/-- **What is written is read in order**, up to the first node whose name does not fit. -/
theorem reading_emitAll (hes : ∀ e ∈ es, e.ZeroFree) (hpos : pos % 4 = 0)
    (hlen : (emitAll s es).1.length < UInt32.size)
    (hnames : (emitAll s es).2.bytes.length < UInt32.size) (hs' : (emitAll s es).2.Extends s') :
    Reading s' es (⟨(emitAll s es).1, pos⟩ : Cursor).run.steps := by
  induction es generalizing s pos with
  | nil => exact .done
  | cons e es ih =>
      obtain ⟨he, hes⟩ := List.forall_mem_cons.mp hes
      rw [emitAll_cons] at hlen hnames hs' ⊢
      rw [List.length_append] at hlen
      have hrest := extends_emitAll (emit s e).2 es
      have hread : ∀ (_ : e.Legal),
          Reading s' (e :: es)
            (⟨(emit s e).1 ++ (emitAll (emit s e).2 es).1, pos⟩ : Cursor).run.steps := by
        intro hlegal
        have hlen₀ : s.bytes.length < UInt32.size :=
          Nat.lt_of_le_of_lt ((extends_emit s e).trans hrest).length_le hnames
        obtain ⟨t, hspelled, hreads⟩ := spelled_emit hlegal hpos hlen₀
        have hmod := length_emit_mod s e
        rw [Cursor.run_of_ok (Cursor.next_of_spelled hspelled _)]
        exact .read (hreads s' (hrest.trans hs')) (ih hes (by omega) (by omega) hnames hs')
      cases e with
      | beginNode name =>
          by_cases hlong : maxNodeName ≤ name.length
          · obtain ⟨failure, c, hnext⟩ := Cursor.next_of_long he hlong s _ pos
            rw [Cursor.run_of_error hnext]
            exact .unread hlong
          · exact hread ⟨he, Nat.lt_of_not_le hlong⟩
      | property name value =>
          have hvalue := length_le_emit s name value
          exact hread ⟨he, by omega⟩
      | endNode => exact hread trivial
      | endTree => exact hread trivial

/-- **What stands behind some point of a written tree is read from there.**  The tree opens, and the
names are found in the strings block that was left at the end. -/
theorem exists_reading (base : HeaderBase) (reservations : Bytes) (strings : StringsBlock)
    (before inside : List Emission) (hinside : ∀ e ∈ inside, e.ZeroFree)
    (hlen : (written base reservations strings (before ++ inside)).length < UInt32.size) :
    ∃ t, DeviceTree.ofBytes (written base reservations strings (before ++ inside)) = .ok t ∧
      t.stringsBlock = (emitAll strings (before ++ inside)).2 ∧
      Reading t.stringsBlock inside (t.runAt (emitAll strings before).1.length).steps := by
  have hopen := ofBytes_assemble hlen []
  rw [List.append_nil] at hopen
  refine ⟨_, hopen, rfl, ?_⟩
  rw [written, length_assemble] at hlen
  rw [runAt_eq]
  show Reading (emitAll strings (before ++ inside)).2 inside
    (⟨(emitAll strings (before ++ inside)).1.drop _, _⟩ : Cursor).run.steps
  rw [emitAll_append] at hlen ⊢
  dsimp only at hlen ⊢
  rw [List.length_append] at hlen
  rw [List.drop_left]
  exact reading_emitAll hinside (length_emitAll_mod strings before) (by omega) (by omega) (.refl _)

end EmmcLayout.DeviceTree
