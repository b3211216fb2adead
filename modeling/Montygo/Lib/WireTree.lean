import Montygo.Lib.WireSchema
import Mathlib.Order.MinMax

/-!
# Messages as trees

By a schema the bytes of a message are a tree: `Reads t b nodes` says that a message of kind `t`
has these nodes, each a field or a message that a field holds.  The bytes determine the tree, so
whatever is to be said about the bytes can be said about the tree; the depth of the tree is the
longest chain of messages below the message (`Reads.nests_iff`).
-/

namespace Montygo.WireFormat

/-- A field of a message, or the message in it. -/
inductive Node where
  | leaf (f : Field)
  | message (num : ℕ) (nodes : List Node)

/-- The fields of a message without messages in them. -/
def leaves (fields : List Field) : List Node := fields.map .leaf

variable {M : Type} (P : Protowire) (S : Schema M)

/-- The field holds no message. -/
def Schema.Leaf (t : M) (f : Field) : Prop := ∀ b, f.payload = .bytes b → S.message t f.num = none

/-- The nodes of a list of fields. -/
inductive ReadsFields : M → List Field → List Node → Prop
  | nil {t : M} : ReadsFields t [] []
  | leaf {t : M} {f : Field} {fields : List Field} {nodes : List Node} (hleaf : S.Leaf t f)
      (hrest : ReadsFields t fields nodes) : ReadsFields t (f :: fields) (.leaf f :: nodes)
  | message {t t' : M} {num : ℕ} {b : List UInt8} {inner fields : List Field}
      {nodes' nodes : List Node} (hmessage : S.message t num = some t')
      (hparse : P.Parses b inner) (hinner : ReadsFields t' inner nodes')
      (hrest : ReadsFields t fields nodes) :
      ReadsFields t (⟨num, .bytes b⟩ :: fields) (.message num nodes' :: nodes)

/-- The bytes of a message of kind `t` are the tree with these nodes. -/
def Reads (t : M) (b : List UInt8) (nodes : List Node) : Prop :=
  ∃ fields, P.Parses b fields ∧ ReadsFields P S t fields nodes

variable {P S} {t t' : M} {b c : List UInt8} {fields fields' : List Field}
  {nodes nodes' : List Node} {num : ℕ}

theorem ReadsFields.append (h : ReadsFields P S t fields nodes)
    (h' : ReadsFields P S t fields' nodes') :
    ReadsFields P S t (fields ++ fields') (nodes ++ nodes') := by
  induction h with
  | nil => exact h'
  | leaf hleaf _ ih => exact .leaf hleaf (ih h')
  | message hmessage hparse hinner _ _ ih => exact .message hmessage hparse hinner (ih h')

theorem readsFields_leaves (h : ∀ f ∈ fields, S.Leaf t f) :
    ReadsFields P S t fields (leaves fields) := by
  induction fields with
  | nil => exact .nil
  | cons f rest ih =>
    exact .leaf (h f List.mem_cons_self) (ih fun x hx => h x (List.mem_cons_of_mem _ hx))

theorem reads_nil : Reads P S t [] [] := ⟨[], .nil, .nil⟩

/-- The fields of two lists of nodes. -/
theorem ReadsFields.split (h : ReadsFields P S t fields (nodes ++ nodes')) :
    ∃ before after, fields = before ++ after ∧ ReadsFields P S t before nodes ∧
      ReadsFields P S t after nodes' := by
  induction nodes generalizing fields with
  | nil => exact ⟨[], fields, rfl, .nil, h⟩
  | cons node rest ih =>
    cases h with
    | leaf hleaf hrest =>
      obtain ⟨before, after, rfl, hbefore, hafter⟩ := ih hrest
      exact ⟨_ :: before, after, rfl, .leaf hleaf hbefore, hafter⟩
    | message hmessage hparse hinner hrest =>
      obtain ⟨before, after, rfl, hbefore, hafter⟩ := ih hrest
      exact ⟨_ :: before, after, rfl, .message hmessage hparse hinner hbefore, hafter⟩

/-- Nodes without messages are the fields. -/
theorem ReadsFields.eq_of_leaves (h : ReadsFields P S t fields (leaves fields')) :
    fields = fields' := by
  induction fields' generalizing fields with
  | nil =>
    cases h
    rfl
  | cons f rest ih =>
    cases h with
    | leaf _ hrest => rw [ih hrest]

/-- A message in its field. -/
theorem ReadsFields.singleton (h : ReadsFields P S t fields [.message num nodes])
    (hmessage : S.message t num = some t') :
    ∃ b, fields = [⟨num, .bytes b⟩] ∧ Reads P S t' b nodes := by
  cases h with
  | message hmessage' hparse hinner hrest =>
    rw [hmessage] at hmessage'
    cases hmessage'
    cases hrest
    exact ⟨_, rfl, _, hparse, hinner⟩

/-! ## Depth -/

mutual

/-- How deep messages nest in a node. -/
def Node.depth : Node → ℕ
  | .leaf _ => 0
  | .message _ nodes => 1 + nodesDepth nodes

/-- How deep messages nest in the nodes of a message. -/
def nodesDepth : List Node → ℕ
  | [] => 0
  | node :: rest => max node.depth (nodesDepth rest)

end

theorem nodesDepth_append (nodes nodes' : List Node) :
    nodesDepth (nodes ++ nodes') = max (nodesDepth nodes) (nodesDepth nodes') := by
  induction nodes with
  | nil => simp [nodesDepth]
  | cons node rest ih => simp only [List.cons_append, nodesDepth, ih, max_assoc]

@[simp] theorem nodesDepth_leaves (fields : List Field) : nodesDepth (leaves fields) = 0 := by
  induction fields with
  | nil => rfl
  | cons f rest ih =>
    rw [leaves, List.map_cons, nodesDepth, ← leaves, ih]
    rfl

theorem nodesDepth_le {n : ℕ} : nodesDepth nodes ≤ n ↔ ∀ node ∈ nodes, node.depth ≤ n := by
  induction nodes with
  | nil => simp [nodesDepth]
  | cons node rest ih => rw [nodesDepth, max_le_iff, ih, List.forall_mem_cons]

theorem succ_le_nodesDepth {k : ℕ} : k + 1 ≤ nodesDepth nodes ↔
      ∃ num inner, Node.message num inner ∈ nodes ∧ k ≤ nodesDepth inner := by
  induction nodes with
  | nil => simp [nodesDepth]
  | cons node rest ih =>
    rw [nodesDepth, le_max_iff, ih]
    cases node with
    | leaf f => simp [Node.depth]
    | message num inner =>
      simp only [Node.depth, List.mem_cons, Node.message.injEq]
      constructor
      · rintro (hle | ⟨num', inner', hmem, hle⟩)
        · exact ⟨num, inner, .inl ⟨rfl, rfl⟩, by omega⟩
        · exact ⟨num', inner', .inr hmem, hle⟩
      · rintro ⟨num', inner', ⟨rfl, rfl⟩ | hmem, hle⟩
        · exact .inl (by omega)
        · exact .inr ⟨num', inner', hmem, hle⟩

/-- The message of a field is a node. -/
theorem ReadsFields.node_of_field (h : ReadsFields P S t fields nodes)
    (hmem : ⟨num, .bytes c⟩ ∈ fields) (hmessage : S.message t num = some t') :
    ∃ inner, Node.message num inner ∈ nodes ∧ Reads P S t' c inner := by
  induction h with
  | nil => cases hmem
  | @leaf t f fields nodes hleaf _ ih =>
    rcases List.mem_cons.mp hmem with rfl | hmem
    · rw [hleaf c rfl] at hmessage
      cases hmessage
    · obtain ⟨inner, hnode, hreads⟩ := ih hmem hmessage
      exact ⟨inner, List.mem_cons_of_mem _ hnode, hreads⟩
  | message hmessage' hparse hinner _ _ ih =>
    rcases List.mem_cons.mp hmem with heq | hmem
    · cases heq
      rw [hmessage'] at hmessage
      cases hmessage
      exact ⟨_, List.mem_cons_self, _, hparse, hinner⟩
    · obtain ⟨inner, hnode, hreads⟩ := ih hmem hmessage
      exact ⟨inner, List.mem_cons_of_mem _ hnode, hreads⟩

/-- A node with a message is a field. -/
theorem ReadsFields.field_of_node {inner : List Node} (h : ReadsFields P S t fields nodes)
    (hnode : Node.message num inner ∈ nodes) :
    ∃ c t', ⟨num, .bytes c⟩ ∈ fields ∧ S.message t num = some t' ∧ Reads P S t' c inner := by
  induction h with
  | nil => cases hnode
  | leaf _ _ ih =>
    rcases List.mem_cons.mp hnode with heq | hnode
    · cases heq
    · obtain ⟨c, t', hmem, hrest⟩ := ih hnode
      exact ⟨c, t', List.mem_cons_of_mem _ hmem, hrest⟩
  | message hmessage hparse hinner _ _ ih =>
    rcases List.mem_cons.mp hnode with heq | hnode
    · cases heq
      exact ⟨_, _, List.mem_cons_self, hmessage, _, hparse, hinner⟩
    · obtain ⟨c, t', hmem, hrest⟩ := ih hnode
      exact ⟨c, t', List.mem_cons_of_mem _ hmem, hrest⟩

/-- **The depth of the tree is the longest chain of messages below the message.** -/
theorem Reads.nests_iff {k : ℕ} (h : Reads P S t b nodes) :
    Nests P S t b k ↔ k ≤ nodesDepth nodes := by
  induction k generalizing t b nodes with
  | zero => exact ⟨fun _ => Nat.zero_le _, fun _ => .here⟩
  | succ k ih =>
    obtain ⟨fields, hparse, hfields⟩ := h
    rw [nests_succ_iff hparse, succ_le_nodesDepth]
    constructor
    · rintro ⟨num, sub, t', hmem, hmessage, hnests⟩
      obtain ⟨inner, hnode, hreads⟩ := hfields.node_of_field hmem hmessage
      exact ⟨num, inner, hnode, (ih hreads).mp hnests⟩
    · rintro ⟨num, inner, hnode, hle⟩
      obtain ⟨sub, t', hmem, hmessage, hreads⟩ := hfields.field_of_node hnode
      exact ⟨num, sub, t', hmem, hmessage, (ih hreads).mpr hle⟩

end Montygo.WireFormat
