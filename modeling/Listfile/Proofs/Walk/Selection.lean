import Listfile.Dump
import Listfile.Proofs.Tree.Spelled
import Listfile.Proofs.Walk.Collect
/-! # Listings of selected nodes

A walk comes to all visible nodes, whatever keys are selected, and to each of them with the same depth. So a listing for
some keys is what a listing for all keys has for the nodes of these, and one for the keys of two selections has the lines
of both between one another.
-/
namespace Listfile
set_option autoImplicit false

/-- Whether a list has the entries of two others, each once and each list in its order. -/
inductive Interleaved {α : Type} : List α → List α → List α → Prop
  | nil : Interleaved [] [] []
  | left {a : α} {as bs cs : List α} : Interleaved as bs cs → Interleaved (a :: as) bs (a :: cs)
  | right {b : α} {as bs cs : List α} : Interleaved as bs cs → Interleaved as (b :: bs) (b :: cs)

namespace Interleaved

variable {α β : Type}

theorem of_filter (p : α → Bool) (list : List α) :
    Interleaved (list.filter p) (list.filter fun a => !p a) list := by
  induction list with
  | nil => exact .nil
  | cons a rest ih =>
    cases h : p a with
    | true =>
      rw [List.filter_cons_of_pos h, List.filter_cons_of_neg (by simp [h])]
      exact .left ih
    | false =>
      rw [List.filter_cons_of_neg (by simp [h]), List.filter_cons_of_pos (by simp [h])]
      exact .right ih

theorem map {as bs cs : List α} (h : Interleaved as bs cs) (f : α → β) :
    Interleaved (as.map f) (bs.map f) (cs.map f) := by
  induction h with
  | nil => exact .nil
  | left _ ih => exact .left ih
  | right _ ih => exact .right ih

end Interleaved

namespace Node

/-- The key under which a handler is called at a node. -/
def key? (node : Node) : Option HandlerKey := node.kind?.map (·.schema.handler)

/-- The visible nodes of a tree that have one of some keys, with their positions, in the order of a walk. -/
def selected (keys : List HandlerKey) (root : Node) : List (Path × Node) :=
  root.walkOrder.filter fun entry => entry.2.key?.any (· ∈ keys)

/-- What the line of a node ends with. -/
def bracketed : Node → String
  | call _ name _ => " [" ++ name ++ "]"
  | inclusion _ filename _ => " [" ++ filename ++ "]"
  | word _ type contents => " [" ++ type.name ++ " " ++ contents ++ "]"
  | _ => ""

/-- The line of a node at a depth. -/
def listing (depth : Nat) (node : Node) : String :=
  toString depth ++ String.ofList (List.replicate depth ' ') ++ " " ++ node.tag ++ " (" ++
    toString node.place.position.line ++ ":" ++ toString node.place.position.column ++ ")" ++ node.bracketed

theorem dumpLine_eq {node : Node} {kind : Kind} (h : node.kind? = some kind) (depth : Nat) :
    dumpLine ⟨kind, depth⟩ node = node.listing depth := by
  have hOpening : " (" = " " ++ "(" := by decide
  unfold dumpLine listing Position.text
  rw [tag_of_kind h, hOpening]
  cases node <;> simp only [detail?, bracketed, String.append_assoc, String.append_empty, -String.reduceAppend]

theorem key?_any_iff {node : Node} {keys : List HandlerKey} :
    node.key?.any (· ∈ keys) ↔ ∃ kind, node.kind? = some kind ∧ kind.schema.handler ∈ keys := by
  cases h : node.kind? <;> simp [key?, h]

/-- A selection from the nodes that were selected for more keys. -/
theorem selected_eq_filter {keys more : List HandlerKey} (h : ∀ key ∈ keys, key ∈ more) (root : Node) :
    root.selected keys = (root.selected more).filter fun entry => entry.2.key?.any (· ∈ keys) := by
  rw [selected, selected, List.filter_filter]
  refine List.filter_congr fun entry _ => ?_
  cases entry.2.key? with
  | none => rfl
  | some key => simpa using h key

theorem interleaved_selected {first second union : List HandlerKey}
    (hUnion : ∀ key, key ∈ union ↔ key ∈ first ∨ key ∈ second) (hDisjoint : ∀ key ∈ first, key ∉ second)
    (root : Node) : Interleaved (root.selected first) (root.selected second) (root.selected union) := by
  have hRest : (root.selected union).filter (fun entry => !entry.2.key?.any (· ∈ first)) = root.selected second := by
    rw [selected, selected, List.filter_filter]
    refine List.filter_congr fun entry _ => ?_
    cases entry.2.key? with
    | none => rfl
    | some key =>
      have hOne := hUnion key
      have hOther := hDisjoint key
      by_cases hFirst : key ∈ first <;> simp_all
  rw [selected_eq_filter (fun key hKey => (hUnion key).mpr (.inl hKey)), ← hRest]
  exact Interleaved.of_filter _ _

end Node

/-- Which nodes are listed for some keys, and in which order: the visible ones that have one of the keys, as their
positions follow one another. -/
structure Selects (keys : List HandlerKey) (root : Node) (entries : List (Path × Node)) : Prop where
  mem_iff : ∀ path node, (path, node) ∈ entries ↔ root.At path node ∧ root.Visible path ∧
    ∃ kind, node.kind? = some kind ∧ kind.schema.handler ∈ keys
  ordered : entries.Pairwise fun a b => root.Precedes a.1 b.1

theorem Selects.kind?_isSome {keys : List HandlerKey} {root : Node} {entries : List (Path × Node)}
    (h : Selects keys root entries) {entry : Path × Node} (hMem : entry ∈ entries) : entry.2.kind?.isSome := by
  obtain ⟨-, -, kind, hKind, -⟩ := (h.mem_iff entry.1 entry.2).mp hMem
  exact Option.isSome_of_mem hKind

theorem selects_selected (keys : List HandlerKey) (root : Node) : Selects keys root (root.selected keys) where
  mem_iff path node := by
    rw [Node.selected, List.mem_filter, Node.mem_walkOrder, Node.key?_any_iff]
    constructor
    · rintro ⟨hAt, kind, hKind, hKey⟩
      exact ⟨hAt, hAt.visible (Option.isSome_of_mem hKind), kind, hKind, hKey⟩
    · rintro ⟨hAt, -, hKey⟩
      exact ⟨hAt, hKey⟩
  ordered := root.pairwise_walkOrder.filter _

namespace Walk

theorem noted?_dumpLine (keys : List HandlerKey) (entry : Path × Node) :
    noted? dumpLine keys entry =
      if entry.2.key?.any (· ∈ keys) then some (entry.2.listing entry.1.length) else none := by
  unfold noted? Node.key?
  cases hKind : entry.2.kind? with
  | none => rfl
  | some kind => simp only [Option.map_some, Option.any_some, decide_eq_true_eq, Node.dumpLine_eq hKind]

theorem collect_dumpLine (keys : List HandlerKey) (root : Node) :
    collect dumpLine keys root = (root.selected keys).map fun entry => entry.2.listing entry.1.length := by
  rw [collect_eq, Node.selected, ← List.filterMap_eq_filter, List.map_filterMap]
  refine List.filterMap_congr fun entry _ => ?_
  rw [noted?_dumpLine, Option.guard]
  split <;> rfl

theorem interleaved_collect {first second union : List HandlerKey}
    (hUnion : ∀ key, key ∈ union ↔ key ∈ first ∨ key ∈ second) (hDisjoint : ∀ key ∈ first, key ∉ second)
    (root : Node) :
    Interleaved (collect dumpLine first root) (collect dumpLine second root) (collect dumpLine union root) := by
  rw [collect_dumpLine, collect_dumpLine, collect_dumpLine]
  exact (Node.interleaved_selected hUnion hDisjoint root).map _

/-- The lines for a list of keys are those lines for all keys that belong to nodes with one of them, in the order of a
walk and unchanged. If no keys are given, they are all but that of the whole script. So the lines for the keys of two
lists are those for the one and those for the keys that only the other has, between one another; and a key that is
added to a list or taken from it brings in or takes out its own lines, and nothing else. -/
theorem selection_is_filter (root : Node) :
    let lines (keys : List HandlerKey) : List String := collect dumpLine keys root
    let text (entry : Path × Node) : String := entry.2.listing entry.1.length
    (∀ key, HandlerKey.all.count key = 1) ∧
    (∃ visited, Selects HandlerKey.all root visited ∧ lines HandlerKey.all = visited.map text ∧
      ∀ keys, lines keys = (visited.filter fun entry => entry.2.key?.any (· ∈ keys)).map text) ∧
    (∀ only, dump only root = if only = [] then lines (HandlerKey.all.filter (· ≠ .toplevel)) else lines only) ∧
    (∀ first second, Interleaved (lines first) (lines (second.filter (· ∉ first))) (lines (first ++ second))) ∧
    (∀ keys key, key ∉ keys → Interleaved (lines keys) (lines [key]) (lines (key :: keys))) ∧
    ∀ keys key, key ∈ keys → Interleaved (lines (keys.filter (· ≠ key))) (lines [key]) (lines keys) := by
  intro lines text
  have hAll (key : HandlerKey) : HandlerKey.all.count key = 1 := by cases key <;> rfl
  refine ⟨hAll, ⟨root.selected HandlerKey.all, selects_selected _ root, collect_dumpLine _ root, fun keys => ?_⟩,
    fun only => ?_, fun first second => ?_, fun keys key hNew => ?_, fun keys key hMem => ?_⟩
  · have hKeys : ∀ key ∈ keys, key ∈ HandlerKey.all := fun key _ => List.count_pos_iff.mp (by rw [hAll]; decide)
    rw [← Node.selected_eq_filter hKeys]
    exact collect_dumpLine keys root
  · cases only <;> rfl
  · refine interleaved_collect (fun key => ?_) (fun key hFirst => ?_) root
    · by_cases hFirst : key ∈ first <;> simp [hFirst]
    · simp [hFirst]
  · refine interleaved_collect (fun key' => ?_) (fun key' hKey => ?_) root
    · rw [List.mem_cons, List.mem_singleton, or_comm]
    · exact fun hEq => hNew (List.mem_singleton.mp hEq ▸ hKey)
  · refine interleaved_collect (fun key' => ?_) (fun key' hKey => ?_) root
    · by_cases hEq : key' = key <;> simp [hEq, hMem]
    · simpa using (List.mem_filter.mp hKey).2

/-- Words among the calls of a loop, of which the last one in the script is visited before the body. -/
theorem selection_is_filter_of_loop :
    let place : Location := ⟨⟨0, 0⟩, ⟨1, 1⟩⟩
    let call (name text : String) : Node := .call place name [.word place .unquoted text]
    let root : Node := .toplevel place [.block place .whileLoop (call "while" "A") [call "f" "B"] (call "endwhile" "C")]
    Interleaved
      ["2   FunctionCall (1:1) [while]", "2   FunctionCall (1:1) [endwhile]", "2   FunctionCall (1:1) [f]"]
      ["3    Word (1:1) [Unquoted A]", "3    Word (1:1) [Unquoted C]", "3    Word (1:1) [Unquoted B]"]
      (collect dumpLine [.word, .call] root) := by
  intro place call root
  obtain ⟨-, -, -, -, hAdded, -⟩ := selection_is_filter root
  have hInterleaved : Interleaved (collect dumpLine [.call] root) (collect dumpLine [.word] root)
      (collect dumpLine [.word, .call] root) := hAdded [.call] .word (by decide)
  have hCalls : collect dumpLine [.call] root =
      ["2   FunctionCall (1:1) [while]", "2   FunctionCall (1:1) [endwhile]", "2   FunctionCall (1:1) [f]"] := by
    decide +kernel
  have hWords : collect dumpLine [.word] root =
      ["3    Word (1:1) [Unquoted A]", "3    Word (1:1) [Unquoted C]", "3    Word (1:1) [Unquoted B]"] := by
    decide +kernel
  rwa [hCalls, hWords] at hInterleaved

end Walk

end Listfile
