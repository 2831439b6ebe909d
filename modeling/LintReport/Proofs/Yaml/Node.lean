import LintReport.Proofs.Yaml.Stream
import LintReport.Yaml.Document

set_option autoImplicit false

/- The tokens of what was written are put together to the nodes that it was written for. -/
namespace LintReport.Yaml

namespace Node

section

variable (handles : Handles) (indentless : Bool) {fuel : Nat} {ts rest : List Token}

theorem node?_scalar (text : String) (plain : Bool) (positive : 0 < fuel) :
    node? handles true indentless fuel (.scalar text plain :: rest) =
      some (.scalar none none text plain, rest) := by
  obtain ⟨fuel, rfl⟩ := Nat.exists_eq_add_of_lt positive
  rw [Nat.zero_add, node?]
  · rfl
  all_goals simp

theorem node?_mapping {entries : List (Node String × Node String)}
    (read : blockEntries? handles fuel ts = some (entries, rest)) :
    node? handles true indentless (fuel + 1) (.blockMappingStart :: ts) =
      some (.mapping none none entries, rest) := by
  rw [node?]
  · simp [properties?, next, read]
  all_goals simp

theorem node?_sequence {items : List (Node String)}
    (read : blockItems? handles fuel ts = some (items, rest)) :
    node? handles true indentless (fuel + 1) (.blockSequenceStart :: ts) =
      some (.sequence none none items, rest) := by
  rw [node?]
  · simp [properties?, next, read]
  all_goals simp

theorem blockNode?_of_node? {stops : List Token} {node : Node String} (goes : next ts ∉ stops)
    (read : node? handles true indentless fuel ts = some (node, rest)) :
    blockNode? handles indentless stops (fuel + 1) ts = some (node, rest) := by
  rw [blockNode?, if_neg goes, read]

theorem blockEntries?_entry (key : String) {value : Node String} {after : List Token}
    {entries : List (Node String × Node String)}
    (goes : next ts ∉ [Token.key, .value, .blockEnd])
    (read : node? handles true true (fuel + 1) ts = some (value, after))
    (others : blockEntries? handles (fuel + 2) after = some (entries, rest)) :
    blockEntries? handles (fuel + 3) (.key :: .scalar key true :: .value :: ts) =
      some ((.scalar none none key true, value) :: entries, rest) := by
  have name : blockNode? handles true [Token.key, .value, .blockEnd] (fuel + 2)
      (.scalar key true :: .value :: ts) = some (.scalar none none key true, .value :: ts) :=
    blockNode?_of_node? handles true (by simp [next])
      (node?_scalar handles true key true (Nat.succ_pos fuel))
  have present : next (.value :: ts) = .value := rfl
  rw [blockEntries?]
  simp only [Option.bind_eq_bind, name, Option.bind_some, present, if_true, List.tail_cons,
    blockNode?_of_node? handles true goes read, others]

theorem blockItems?_item {item : Node String} {after : List Token} {items : List (Node String)}
    (goes : next ts ∉ [Token.blockEntry, .blockEnd])
    (read : node? handles true false fuel ts = some (item, after))
    (others : blockItems? handles (fuel + 1) after = some (items, rest)) :
    blockItems? handles (fuel + 2) (.blockEntry :: ts) = some (item :: items, rest) := by
  rw [blockItems?]
  simp only [Option.bind_eq_bind, blockNode?_of_node? handles false goes read, Option.bind_some,
    others]

theorem blockEntries?_end : blockEntries? handles fuel (.blockEnd :: rest) = some ([], rest) := by
  cases fuel <;> rw [blockEntries?]

theorem blockItems?_end : blockItems? handles fuel (.blockEnd :: rest) = some ([], rest) := by
  cases fuel <;> rw [blockItems?]

end

/-- What stands behind a key, or an item, is no sign that a node is missing there. -/
theorem next_value (v : Written.Value) (rest : List Token) {stops : List Token}
    (known : ∀ t ∈ stops, t = .key ∨ t = .value ∨ t = .blockEntry ∨ t = .blockEnd) :
    next (v.tokens ++ rest) ∉ stops := by
  intro member
  have stop := known _ member
  cases v <;> simp [Written.Value.tokens, next] at stop

mutual

theorem node?_value (v : Written.Value) (handles : Handles) (indentless : Bool) (fuel : Nat)
    (enough : 2 * v.tokens.length ≤ fuel) (rest : List Token) :
    node? handles true indentless fuel (v.tokens ++ rest) = some (v.node String, rest) := by
  cases v with
  | quoted s =>
      exact node?_scalar handles indentless s false (Nat.lt_of_lt_of_le Nat.two_pos enough)
  | number n =>
      exact node?_scalar handles indentless _ true (Nat.lt_of_lt_of_le Nat.two_pos enough)
  | record r =>
      have length : (Written.Value.record r).tokens.length = r.tokens.length + 2 := by
        simp [Written.Value.tokens]
      obtain ⟨fuel, rfl⟩ : ∃ f, fuel = f + 1 := ⟨fuel - 1, by omega⟩
      have read := blockEntries?_record r handles fuel (by omega) rest
      rw [Written.Value.tokens, List.append_assoc]
      exact node?_mapping handles indentless read
  | sequence s =>
      have length : (Written.Value.sequence s).tokens.length = s.tokens.length + 2 := by
        simp [Written.Value.tokens]
      obtain ⟨fuel, rfl⟩ : ∃ f, fuel = f + 1 := ⟨fuel - 1, by omega⟩
      have read := blockItems?_items s handles fuel (by omega) rest
      rw [Written.Value.tokens, List.append_assoc]
      exact node?_sequence handles indentless read

theorem blockEntries?_record (r : Written.Record) (handles : Handles) (fuel : Nat)
    (enough : 2 * r.tokens.length ≤ fuel) (rest : List Token) :
    blockEntries? handles fuel (r.tokens ++ .blockEnd :: rest) =
      some (r.entries String, rest) := by
  cases r with
  | one key value =>
      have length : (Written.Record.one key value).tokens.length = value.tokens.length + 3 := by
        simp [Written.Record.tokens]
      obtain ⟨fuel, rfl⟩ : ∃ f, fuel = f + 3 := ⟨fuel - 3, by omega⟩
      have read := node?_value value handles true (fuel + 1) (by omega) (.blockEnd :: rest)
      exact blockEntries?_entry handles key.name (next_value value _ (by simp)) read
        (blockEntries?_end handles)
  | cons key value others =>
      have length : (Written.Record.cons key value others).tokens.length =
          value.tokens.length + others.tokens.length + 3 := by
        simp [Written.Record.tokens]
      obtain ⟨fuel, rfl⟩ : ∃ f, fuel = f + 3 := ⟨fuel - 3, by omega⟩
      have read := node?_value value handles true (fuel + 1) (by omega)
        (others.tokens ++ .blockEnd :: rest)
      have further := blockEntries?_record others handles (fuel + 2) (by omega) rest
      have entry := blockEntries?_entry handles key.name (next_value value _ (by simp))
        read further
      simpa [Written.Record.tokens, Written.Record.entries] using entry

theorem blockItems?_items (s : Written.Items) (handles : Handles) (fuel : Nat)
    (enough : 2 * s.tokens.length ≤ fuel) (rest : List Token) :
    blockItems? handles fuel (s.tokens ++ .blockEnd :: rest) = some (s.nodes String, rest) := by
  cases s with
  | one r =>
      have length : (Written.Items.one r).tokens.length = r.tokens.length + 3 := by
        simp [Written.Items.tokens]
      obtain ⟨fuel, rfl⟩ : ∃ f, fuel = f + 3 := ⟨fuel - 3, by omega⟩
      have read := blockEntries?_record r handles fuel (by omega) (.blockEnd :: rest)
      have item := blockItems?_item handles (by simp [next]) (node?_mapping handles false read)
        (blockItems?_end handles)
      simpa [Written.Items.tokens, Written.Items.nodes] using item
  | cons r others =>
      have length : (Written.Items.cons r others).tokens.length =
          r.tokens.length + others.tokens.length + 3 := by
        simp [Written.Items.tokens]
        omega
      obtain ⟨fuel, rfl⟩ : ∃ f, fuel = f + 3 := ⟨fuel - 3, by omega⟩
      have read := blockEntries?_record r handles fuel (by omega)
        (others.tokens ++ .blockEnd :: rest)
      have further := blockItems?_items others handles (fuel + 2) (by omega) rest
      have item := blockItems?_item handles (by simp [next]) (node?_mapping handles false read)
        further
      simpa [Written.Items.tokens, Written.Items.nodes] using item

end

/-- The root of the tokens of a document. -/
theorem root?_document (r : Written.Record) :
    root? r.stream = some (.mapping none none (r.entries String)) := by
  have enough : 2 * r.tokens.length ≤ 4 * r.stream.length + 3 := by
    simp only [Written.Record.stream, List.length_append, List.length_cons]
    omega
  have read : node? standardHandles true false (4 * r.stream.length + 4) r.stream =
      some (.mapping none none (r.entries String), [.streamEnd]) :=
    node?_mapping standardHandles false
      (blockEntries?_record r standardHandles _ enough [.streamEnd])
  have first : next r.stream = .blockMappingStart := rfl
  have last : atStreamEnd [.streamEnd] = true := by decide
  rw [root?]
  simp only [first, reduceCtorEq, startsDirective, Bool.false_eq_true, or_self, if_false, read,
    Option.bind_eq_bind, Option.bind_some, last, if_true]

mutual

/-- There is nothing to be looked up. -/
theorem link_value (v : Written.Value) (n : Numbering) :
    ∃ n', (v.node String).link n = some (v.node Nat, n') := by
  cases v with
  | quoted s => exact ⟨_, rfl⟩
  | number k => exact ⟨_, rfl⟩
  | record r =>
      obtain ⟨n', linked⟩ := linkEntries_record r (n.enter none)
      exact ⟨n', by simp [Written.Value.node, link, linked]⟩
  | sequence s =>
      obtain ⟨n', linked⟩ := linkItems_items s (n.enter none)
      exact ⟨n', by simp [Written.Value.node, link, linked]⟩

theorem linkEntries_record (r : Written.Record) (n : Numbering) :
    ∃ n', linkEntries n (r.entries String) = some (r.entries Nat, n') := by
  cases r with
  | one key value =>
      obtain ⟨n', linked⟩ := link_value value (n.enter none)
      exact ⟨n', by simp [Written.Record.entries, linkEntries, link, linked]⟩
  | cons key value others =>
      obtain ⟨n', linked⟩ := link_value value (n.enter none)
      obtain ⟨n'', further⟩ := linkEntries_record others n'
      exact ⟨n'', by simp [Written.Record.entries, linkEntries, link, linked, further]⟩

theorem linkItems_items (s : Written.Items) (n : Numbering) :
    ∃ n', linkItems n (s.nodes String) = some (s.nodes Nat, n') := by
  cases s with
  | one r =>
      obtain ⟨n', linked⟩ := linkEntries_record r (n.enter none)
      exact ⟨n', by simp [Written.Items.nodes, linkItems, link, linked]⟩
  | cons r others =>
      obtain ⟨n', linked⟩ := linkEntries_record r (n.enter none)
      obtain ⟨n'', further⟩ := linkItems_items others n'
      exact ⟨n'', by simp [Written.Items.nodes, linkItems, link, linked, further]⟩

end

end Node

/-- A written document is read back as the record that it was written for. -/
theorem Document.parse?_document (r : Written.Record) (inline : Written.Inline r.texts) :
    ∃ d, parse? r.document = some d ∧ d.root = .mapping none none (r.entries Nat) := by
  obtain ⟨n, linked⟩ := Node.linkEntries_record r (Numbering.enter ⟨0, [], []⟩ none)
  have root : (Node.mapping none none (r.entries String)).link ⟨0, [], []⟩ =
      some (.mapping none none (r.entries Nat), n) := by
    rw [Node.link, linked]
    rfl
  exact ⟨_, by simp only [parse?, tokens?_document r inline, Option.bind_eq_bind,
    Option.bind_some, Node.root?_document, root]; rfl, rfl⟩

end LintReport.Yaml
