import Listfile.Proofs.Json.Injective
import Listfile.Proofs.Tree.Exported
import Listfile.Proofs.Tree.ReadBack
/-! # Unknown contents, written back

A tree that another tool has written may have nodes of kinds that are not known here, with contents of any shape. It is
read in any case, but the members of the objects in these contents come back sorted by name. So its text is written back
unchanged just if all of them were sorted to begin with.
-/
namespace Listfile.Node
set_option autoImplicit false

def sorting : FieldMap where
  payload := Json.sorted

/-- A tree with all objects in its unknown contents sorted. -/
def sorted (node : Node) : Node := node.mapFields sorting

/-- Whether the node itself, apart from those it stores, may come from another tool: its unknown contents are any value
with no numbers but integers from `-2 ^ 63` to `2 ^ 64 - 1`. -/
def Foreign (node : Node) : Prop := node.Legible ∧ node.PlainPayload

/-- Whether all objects in unknown contents have their members sorted by name, with one member a name. -/
def OrderedPayload : Node → Prop
  | unrecognized _ _ payload => payload.Everywhere Json.Ordered
  | _ => True

theorem received_of_plain {root : Node} (h : root.Everywhere PlainPayload) : root.received = root.sorted := by
  refine mapFields_congr root (h.imp fun node hNode => ?_)
  cases node with
  | unrecognized => exact congrArg Json.sorted (Json.reread_of_plain _ hNode)
  | _ => trivial

theorem sorted_of_ordered {root : Node} (hPlain : root.Everywhere PlainPayload)
    (h : root.Everywhere OrderedPayload) : root.sorted = root := by
  refine (mapFields_congr root ((hPlain.and h).imp fun node hNode => ?_)).trans (mapFields_id root)
  cases node with
  | unrecognized => exact (Json.sorted_eq_self_iff hNode.1).mpr hNode.2
  | _ => trivial

/-! ## Exported trees have no numbers but integers -/

theorem plain_envelope {node : Node} {payload : Json} (hPlace : node.place.Fits)
    (hPayload : payload.Everywhere Json.Plain) : (node.envelope payload).Everywhere Json.Plain := by
  obtain ⟨hStart, hStop, hLine, hColumn⟩ := hPlace
  have hKind : (node.tagged payload).Everywhere Json.Plain :=
    Json.everywhere_object trivial (List.forall_mem_singleton.mpr hPayload)
  have hSpan : node.span.toJson.Everywhere Json.Plain :=
    Json.everywhere_object trivial (by simpa using ⟨Json.plain_ofNat hStart, Json.plain_ofNat hStop⟩)
  exact Json.everywhere_object trivial (by simpa using ⟨hKind, hSpan, Json.plain_ofNat hLine, Json.plain_ofNat hColumn⟩)

mutual

theorem plain_payload (node : Node) (h : node.Everywhere Foreign) : node.payload.Everywhere Json.Plain := by
  cases node with
  | toplevel _ statements =>
    have hStatements := plain_elements statements (everywhere_toplevel.mp h).2
    exact Json.everywhere_object trivial (by simpa using hStatements)
  | block _ _ header body footer =>
    obtain ⟨-, hHeader, hBody, hFooter⟩ := everywhere_block.mp h
    have hHeader := plain_envelope hHeader.self.1.fits (plain_payload header hHeader)
    have hBody := plain_elements body hBody
    have hFooter := plain_envelope hFooter.self.1.fits (plain_payload footer hFooter)
    exact Json.everywhere_object trivial (by simpa using ⟨hHeader, hBody, hFooter⟩)
  | conditional _ ifClause elseifs elseClause footer =>
    obtain ⟨-, hIf, hElseifs, hElse, hFooter⟩ := everywhere_conditional.mp h
    have hIf := plain_envelope hIf.self.1.fits (plain_payload ifClause hIf)
    have hElseifs := plain_elements elseifs hElseifs
    have hElse := plain_orNull elseClause hElse
    have hFooter := plain_envelope hFooter.self.1.fits (plain_payload footer hFooter)
    exact Json.everywhere_object trivial (by simpa using ⟨hIf, hElseifs, hElse, hFooter⟩)
  | clause _ _ header body =>
    obtain ⟨-, hHeader, hBody⟩ := everywhere_clause.mp h
    have hHeader := plain_envelope hHeader.self.1.fits (plain_payload header hHeader)
    have hBody := plain_elements body hBody
    exact Json.everywhere_object trivial (by simpa using ⟨hHeader, hBody⟩)
  | call _ name arguments =>
    have hArguments := plain_elements arguments (everywhere_call.mp h).2
    exact Json.everywhere_object trivial (by simpa using ⟨Json.plain_string name, hArguments⟩)
  | inclusion _ filename options =>
    have hOptions : (Json.array (options.map .string)).Everywhere Json.Plain :=
      Json.everywhere_array trivial (by simpa using fun option _ => Json.plain_string option)
    exact Json.everywhere_object trivial (by simpa using ⟨Json.plain_string filename, hOptions⟩)
  | word _ type contents =>
    exact Json.everywhere_object trivial (by simpa using ⟨Json.plain_string type.name, Json.plain_string contents⟩)
  | unrecognized => exact h.self.2

theorem plain_elements (nodes : List Node) (h : ∀ node ∈ nodes, node.Everywhere Foreign) :
    (Json.array (elements nodes)).Everywhere Json.Plain := by
  cases nodes with
  | nil => exact Json.everywhere_array trivial (List.forall_mem_nil _)
  | cons first rest =>
    obtain ⟨hFirst, hRest⟩ := List.forall_mem_cons.mp h
    have hFirst := plain_envelope hFirst.self.1.fits (plain_payload first hFirst)
    have hRest := plain_elements rest hRest
    exact Json.everywhere_array trivial (List.forall_mem_cons.mpr ⟨hFirst, fun _ hElement => hRest.element hElement⟩)

theorem plain_orNull (child : Option Node) (h : ∀ node ∈ child, node.Everywhere Foreign) :
    (orNull child).Everywhere Json.Plain := by
  cases child with
  | none =>
    intro inner hInner
    cases hInner
    trivial
  | some node => exact plain_envelope (h node rfl).self.1.fits (plain_payload node (h node rfl))

end

theorem plain_toJson {root : Node} (h : root.Everywhere Foreign) : root.toJson.Everywhere Json.Plain :=
  plain_envelope h.self.1.fits (plain_payload root h)

theorem Foreign.sorted {node : Node} (h : node.Foreign) : node.sorted.Foreign := by
  cases node with
  | unrecognized place tag payload =>
    obtain ⟨⟨hFits, hUnknown, -⟩, hPlain⟩ := h
    have hPlain : payload.sorted.Everywhere Json.Plain := Json.plain_sorted payload hPlain
    exact ⟨⟨hFits, hUnknown, fun inner hInner => (hPlain inner hInner).writable⟩, hPlain⟩
  | _ => exact h

/-! ## Texts -/

/-- Where the tree with sorted contents has the same text, all contents are sorted. -/
theorem ordered_of_render_eq {layout : Json.Layout} {root : Node} (h : root.Everywhere Foreign)
    (hSame : root.sorted.render layout = root.render layout) : root.Everywhere OrderedPayload := by
  have hSorted : root.sorted.Everywhere Foreign := by
    intro path target hAt
    obtain ⟨node, hNode, rfl⟩ := (at_mapFields sorting).mp hAt
    exact (h path node hNode).sorted
  have hJson : root.sorted.toJson = root.toJson := Json.render_injective (plain_toJson hSorted) (plain_toJson h) hSame
  intro path node hAt
  have hNode : node.sorted.toJson = node.toJson := by
    have hTarget : root.sorted.At path node.sorted := (at_mapFields sorting).mpr ⟨node, hAt, rfl⟩
    have hThere := at?_toJson hTarget
    rw [hJson, at?_toJson hAt] at hThere
    exact (Option.some.inj hThere).symm
  cases node with
  | unrecognized place tag payload =>
    have hContents := congrArg (fun json => (json.member? "kind").bind Json.only?) hNode
    have hPayload : payload.sorted = payload := Option.some.inj hContents
    exact (Json.sorted_eq_self_iff (h path _ hAt).2).mp hPayload
  | _ => trivial

/-- What is written for the tree of another tool is read, in either layout, with all objects sorted. -/
theorem ofJson_render_of_foreign (layout : Json.Layout) {root : Node} (h : root.Everywhere Foreign) :
    ofJson (root.render layout) = .ok root.sorted := by
  have hRead := ofJson_render_append_of_legible layout (h.imp fun _ hNode => hNode.1) Json.blank_empty
  rwa [String.append_empty, received_of_plain (h.imp fun _ hNode => hNode.2)] at hRead

/-- The tree of another tool is read, and is written back unchanged just if all objects in unknown contents have their
members in order. -/
theorem written_back_iff_ordered (layout : Json.Layout) {root : Node} (h : root.Everywhere Foreign) :
    ofJson (root.render layout) = .ok root.sorted ∧
      (root.sorted.render layout = root.render layout ↔ root.Everywhere OrderedPayload) := by
  refine ⟨ofJson_render_of_foreign layout h, ordered_of_render_eq h, fun hOrdered => ?_⟩
  rw [sorted_of_ordered (h.imp fun _ hNode => hNode.2) hOrdered]

/-- A node of unknown kind that holds two numbers under the given names. -/
def numbered (first second : String) : Node :=
  .unrecognized ⟨⟨0, 0⟩, ⟨1, 1⟩⟩ "Scope" (.object [(first, .ofNat 1), (second, .ofNat 2)])

theorem foreign_numbered (first second : String) : (numbered first second).Everywhere Foreign := by
  have hFits : Location.Fits ⟨⟨0, 0⟩, ⟨1, 1⟩⟩ := by
    unfold Location.Fits Json.Fits
    decide
  have hSmall (n : Nat) (h : n < 3) : (Json.ofNat n).Everywhere Json.Plain :=
    Json.plain_ofNat (Nat.lt_trans h (by decide))
  have hPlain : (Json.object [(first, .ofNat 1), (second, .ofNat 2)]).Everywhere Json.Plain :=
    Json.everywhere_object trivial (by simpa using ⟨hSmall 1 (by decide), hSmall 2 (by decide)⟩)
  exact (everywhere_leaf rfl).mpr ⟨⟨hFits, by decide, fun inner hInner => (hPlain inner hInner).writable⟩, hPlain⟩

theorem written_back_of_numbered : ofJson ((numbered "a" "b").render .compact) = .ok (numbered "a" "b").sorted ∧
    (numbered "a" "b").sorted.render .compact = (numbered "a" "b").render .compact := by
  obtain ⟨hRead, hSame⟩ := written_back_iff_ordered .compact (foreign_numbered "a" "b")
  refine ⟨hRead, hSame.mpr ((everywhere_leaf rfl).mpr ?_)⟩
  refine Json.everywhere_object (List.pairwise_pair.mpr (by decide)) ?_
  rintro member (_ | ⟨_, _ | ⟨_, _ | _⟩⟩) inner hInner <;> cases hInner <;> trivial

theorem not_written_back_of_numbered : (numbered "b" "a").Everywhere Foreign ∧
    ∃ node, ofJson ((numbered "b" "a").render .compact) = .ok node ∧
      node.render .compact ≠ (numbered "b" "a").render .compact := by
  refine ⟨foreign_numbered "b" "a", _, ofJson_render_of_foreign .compact (foreign_numbered "b" "a"), fun hSame => ?_⟩
  have hOrdered := ordered_of_render_eq (foreign_numbered "b" "a") hSame
  have hSorted : Json.Sorted [("b", .ofNat 1), ("a", .ofNat 2)] := hOrdered.self.self
  exact absurd (List.pairwise_pair.mp hSorted) (by decide)

end Listfile.Node
