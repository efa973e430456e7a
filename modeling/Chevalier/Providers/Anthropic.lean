import Chevalier.Foundations.Json
import Chevalier.Foundations.Places
import Chevalier.Foundations.Stream
import Chevalier.Foundations.Table

/-!
# The Anthropic stream

`parse_anthropic_chunk` reads the chunks of a message one by one. Tool blocks are opened by index,
collect their input and are completed by their own stop or by the end of the message; usage counters
arrive in parts. A chunk is first read (`Event.decode`), then handled.

* `tool_blocks_once`: every tool block that was started is completed once;
* `usage_reported`: of a regular message the last usage is the usage that the message reported.
-/

namespace Chevalier.Providers.Anthropic

open Json List

/-! ## The parser -/

/-- The counters of a usage object, as far as they are given. -/
structure Counters where
  inputTokens : Option Nat
  outputTokens : Option Nat
  cacheReadInputTokens : Option Nat
  cacheCreationInputTokens : Option Nat

structure Usage where
  inputTokens : Nat := 0
  outputTokens : Nat := 0
  cachedTokens : Nat := 0
  cacheWriteInputTokens : Nat := 0
deriving DecidableEq

/-- A complete tool call: the fields of the JSON object that is emitted. -/
structure ToolCall where
  id : String
  name : String
  rawArguments : String
  arguments : Json

inductive StreamChunk
  | content (text : String)
  | reasoning (text : String)
  | signature (text : String)
  | toolCallPartial (id name arguments : String)
  | toolCallComplete (call : ToolCall)
  | usage (usage : Usage)

/-- What a chunk says. -/
inductive Event
  | content (text : String)
  | reasoning (text : String)
  | signature (text : String)
  | inputJsonDelta (index : Nat) (partialJson : String)
  | toolUse (index : Nat) (id name : String)
  | blockStop (index : Nat)
  | messageDelta (usage : Option Counters) (stopReason : Bool)
  | messageStart (usage : Option Counters)
  | messageStop
  | other

def Counters.decode (usage : Json) : Option Counters :=
  usage.asObject.map fun _ => {
    inputTokens := (usage.get "input_tokens").bind asU64
    outputTokens := (usage.get "output_tokens").bind asU64
    cacheReadInputTokens := (usage.get "cache_read_input_tokens").bind asU64
    cacheCreationInputTokens := (usage.get "cache_creation_input_tokens").bind asU64 }

def Event.decode (chunk : Json) : Event :=
  let index := (chunk.index "index").asU64.getD 0
  match (chunk.index "type").asStr with
  | some "content_block_delta" =>
    let delta := chunk.index "delta"
    let text (kind : String → Event) (key : String) : Event :=
      ((delta.index key).asStr.map kind).getD .other
    match (delta.index "type").asStr.getD "" with
    | "text_delta" => text .content "text"
    | "input_json_delta" => text (.inputJsonDelta index) "partial_json"
    | "thinking_delta" => text .reasoning "thinking"
    | "signature_delta" => text .signature "signature"
    | _ => .other
  | some "content_block_start" =>
    let block := chunk.index "content_block"
    if (block.index "type").asStr = some "tool_use" then
      .toolUse index ((block.index "id").asStr.getD "") ((block.index "name").asStr.getD "")
    else .other
  | some "content_block_stop" => .blockStop index
  | some "message_delta" =>
    .messageDelta (Counters.decode (chunk.index "usage"))
      (((chunk.index "delta").index "stop_reason").asStr.any fun reason => !reason.isEmpty)
  | some "message_start" => .messageStart (Counters.decode ((chunk.index "message").index "usage"))
  | some "message_stop" => .messageStop
  | _ => .other

structure PartialToolCall where
  id : String
  name : String
  input : String

structure ToolCallAccumulator where
  currentToolBlocks : Table Nat PartialToolCall := .empty
  usage : Usage := {}

-- `parse_or_repair_tool_arguments`: the arguments that were parsed or repaired
variable (repair r : String → Option Json)

def PartialToolCall.complete (tool : PartialToolCall) : ToolCall where
  id := tool.id
  name := tool.name
  rawArguments := tool.input
  arguments := if tool.input = "" then .object [] else (repair tool.input).getD (.object [])

namespace ToolCallAccumulator

def startTool (acc : ToolCallAccumulator) (index : Nat) (id name : String) : ToolCallAccumulator :=
  { acc with currentToolBlocks := acc.currentToolBlocks.set index ⟨id, name, ""⟩ }

def accumulateInput (acc : ToolCallAccumulator) (index : Nat) (partialJson : String) :
    List StreamChunk × ToolCallAccumulator :=
  match acc.currentToolBlocks.get index with
  | some tool =>
    let input := tool.input ++ partialJson
    ([.toolCallPartial tool.id tool.name input],
      { acc with currentToolBlocks := acc.currentToolBlocks.set index { tool with input := input } })
  | none => ([], acc)

/-- Complete and remove the tool calls of some indexes, in turn. -/
def completeTools (acc : ToolCallAccumulator) (indices : List Nat) :
    List StreamChunk × ToolCallAccumulator :=
  (indices.filterMap fun index => (acc.currentToolBlocks.get index).map fun tool =>
      .toolCallComplete (tool.complete repair),
    { acc with currentToolBlocks := acc.currentToolBlocks.delete fun index _ => index ∈ indices })

def drainAllTools (acc : ToolCallAccumulator) : List StreamChunk × ToolCallAccumulator :=
  acc.completeTools repair ((acc.currentToolBlocks.rows.map Prod.fst).insertionSort (· ≤ ·))

def updateUsage (acc : ToolCallAccumulator)
    (inputTokens outputTokens cachedTokens cacheWriteInputTokens : Option Nat) :
    List StreamChunk × ToolCallAccumulator :=
  let usage : Usage := {
    inputTokens := inputTokens.getD acc.usage.inputTokens
    outputTokens := outputTokens.getD acc.usage.outputTokens
    cachedTokens := cachedTokens.getD acc.usage.cachedTokens
    cacheWriteInputTokens := cacheWriteInputTokens.getD acc.usage.cacheWriteInputTokens }
  ([.usage usage], { acc with usage := usage })

end ToolCallAccumulator

/-- The usage that a `message_delta` or a `message_start` updates. -/
def handleUsage (event : Event) (acc : ToolCallAccumulator) :
    List StreamChunk × ToolCallAccumulator :=
  match event with
  | .messageDelta (some usage) _ =>
    if 0 < usage.outputTokens.getD 0 ∨ 0 < usage.inputTokens.getD 0 ∨
        usage.cacheCreationInputTokens.isSome then
      acc.updateUsage none (some (usage.outputTokens.getD 0)) none usage.cacheCreationInputTokens
    else ([], acc)
  | .messageStart (some usage) =>
    if 0 < usage.inputTokens.getD 0 then
      acc.updateUsage (some (usage.inputTokens.getD 0)) (some 0)
        (some (usage.cacheReadInputTokens.getD 0)) (some (usage.cacheCreationInputTokens.getD 0))
    else ([], acc)
  | _ => ([], acc)

/-- What an event adds to the text and to the tool blocks. -/
def handleTools (hasTools : Bool) (event : Event) (acc : ToolCallAccumulator) :
    List StreamChunk × ToolCallAccumulator :=
  match event with
  | .content text => ([.content text], acc)
  | .reasoning text => ([.reasoning text], acc)
  | .signature text => ([.signature text], acc)
  | .inputJsonDelta index partialJson =>
    if hasTools then acc.accumulateInput index partialJson else ([], acc)
  | .toolUse index id name => ([], acc.startTool index id name)
  | .blockStop index => if hasTools then acc.completeTools repair [index] else ([], acc)
  | .messageDelta _ true | .messageStop =>
    if hasTools then acc.drainAllTools repair else ([], acc)
  | _ => ([], acc)

def parseAnthropicChunk (hasTools : Bool) (chunk : Json) (acc : ToolCallAccumulator) :
    List StreamChunk × ToolCallAccumulator :=
  let event := Event.decode chunk
  let updated := handleUsage event acc
  let handled := handleTools repair hasTools event updated.2
  (updated.1 ++ handled.1, handled.2)

/-! ## Tool blocks -/

/-- The index of the tool block that an event starts. -/
def Event.started : Event → Option Nat
  | .toolUse index _ _ => some index
  | _ => none

/-- The event ends the message. -/
def Event.ends : Event → Bool
  | .messageDelta _ stopReason => stopReason
  | .messageStop => true
  | _ => false

/-- The input that an event adds to the block of an index. -/
def Event.input (index : Nat) : Event → String
  | .inputJsonDelta place partialJson => if place = index then partialJson else ""
  | _ => ""

/-- The concatenation of the deltas of an index. -/
def input (index : Nat) (events : List Event) : String :=
  (events.map (Event.input index)).foldl (· ++ ·) ""

/-- The tool calls among the chunks. -/
def completes (chunks : List StreamChunk) : List ToolCall :=
  chunks.filterMap fun
    | .toolCallComplete call => some call
    | _ => none

/-- A tool block that was started, with the input given since. -/
def Open (events : List Event) (index : Nat) (id name text : String) : Prop :=
  ∃ before after, events = before ++ .toolUse index id name :: after ∧ text = input index after

/-- What was emitted for which blocks, and which blocks are open, after some events. -/
structure Tracks (events : List Event) (emitted : List (List (Nat × ToolCall)))
    (blocks : Table Nat PartialToolCall) : Prop where
  length : emitted.length = events.length
  once : (emitted.flatten.map Prod.fst).Nodup
  started : ∀ index, index ∈ events.filterMap Event.started ↔
    index ∈ emitted.flatten.map Prod.fst ∨ (blocks.get index).isSome
  apart : ∀ index, (blocks.get index).isSome → index ∉ emitted.flatten.map Prod.fst
  opened : ∀ index tool, blocks.get index = some tool →
    Open events index tool.id tool.name tool.input
  ordered : ∀ batch ∈ emitted, (batch.map Prod.fst).Pairwise (· < ·)
  calls : ∀ place batch, emitted[place]? = some batch → ∀ entry ∈ batch,
    Open (events.take place) entry.1 entry.2.id entry.2.name entry.2.rawArguments

variable {events eve : List Event} {event ev : Event} {emitted em : List (List (Nat × ToolCall))}
  {blocks bl next : Table Nat PartialToolCall}

theorem Open.concat {i : Nat} {id name text : String} (h : Open eve i id name text)
    (ev : Event) : Open (eve ++ [ev]) i id name (text ++ ev.input i) := by
  obtain ⟨b, a, rfl, rfl⟩ := h
  refine ⟨b, a ++ [ev], ?_, by simp [input]⟩
  rw [append_assoc, cons_append]

/-- The calls of the blocks of some indexes. -/
def batch (blocks : Table Nat PartialToolCall) (indices : List Nat) : List (Nat × ToolCall) :=
  indices.filterMap fun index => (blocks.get index).map fun tool => (index, tool.complete repair)

theorem map_fst_batch (bl : Table Nat PartialToolCall) (i : List Nat) :
    (batch r bl i).map Prod.fst = i.filter fun ind => (bl.get ind).isSome := by
  induction i with
  | nil => rfl
  | cons ind i ih =>
    unfold batch at ih ⊢
    cases hg : bl.get ind <;> simpa [hg] using ih

/-- The blocks of some indexes are completed; the others go on, and one may be started. -/
theorem Tracks.step (h : Tracks eve em bl) {i : List Nat}
    (hi : i.Pairwise (· < ·))
    (hf : ∀ index ∈ ev.started, index ∉ eve.filterMap Event.started)
    (hso : ∀ index, (next.get index).isSome ↔
      index ∈ ev.started ∨ index ∉ i ∧ (bl.get index).isSome)
    (ho : ∀ index tool, next.get index = some tool →
      Open (eve ++ [ev]) index tool.id tool.name tool.input) :
    Tracks (eve ++ [ev]) (em ++ [batch r bl i]) next := by
  have hfs := map_fst_batch r bl i
  have hmem : ∀ {index}, index ∈ (em ++ [batch r bl i]).flatten.map Prod.fst ↔
      index ∈ em.flatten.map Prod.fst ∨ index ∈ i ∧ (bl.get index).isSome := by
    intro index
    rw [flatten_concat, map_append, mem_append, hfs, mem_filter]
  have hs : ∀ {index}, index ∈ (eve ++ [ev]).filterMap Event.started ↔
      index ∈ eve.filterMap Event.started ∨ index ∈ ev.started := by
    intro index
    rw [filterMap_append, mem_append, mem_filterMap (l := [ev])]
    simp
  refine ⟨by simp [h.length], ?_, fun index => ?_, fun index hop hin => ?_, ho,
    fun batch hb => ?_, fun p batch hb e he => ?_⟩
  · rw [flatten_concat, map_append, hfs, nodup_append']
    refine ⟨h.once, (hi.imp Nat.ne_of_lt).filter _, fun index hold hn => ?_⟩
    exact h.apart index (List.mem_filter.1 hn).2 hold
  · rw [hs, h.started, hmem, hso]
    tauto
  · rw [hmem] at hin
    rcases (hso index).1 hop with hn | ⟨hnot, hold⟩
    · exact hf index hn ((h.started index).2 (hin.imp_right And.right))
    · exact hin.elim (h.apart index hold) fun hin => hnot hin.1
  · rcases mem_concat.1 hb with hold | rfl
    · exact h.ordered batch hold
    · rw [hfs]
      exact hi.filter _
  · rcases getElem?_concat_cases hb with hold | ⟨rfl, rfl⟩
    · rw [take_append_of_le_length (h.length ▸ (lt_of_getElem? hold).le)]
      exact h.calls p batch hold e he
    · obtain ⟨index, -, he⟩ := List.mem_filterMap.1 he
      obtain ⟨tool, hg, rfl⟩ := Option.map_eq_some_iff.1 he
      rw [h.length, take_left]
      exact h.opened index tool hg

/-- An event that starts nothing and gives the open blocks no input. -/
theorem Tracks.emit (h : Tracks eve em bl) {i : List Nat}
    (hi : i.Pairwise (· < ·)) (he : ev.started = none)
    (hin : ∀ index, (bl.get index).isSome → ev.input index = "")
    (hn : ∀ index, next.get index = if index ∈ i then none else bl.get index) :
    Tracks (eve ++ [ev]) (em ++ [batch r bl i]) next := by
  refine h.step r hi (by simp [he]) (fun index => ?_) fun index tool hg => ?_
  · rw [hn]
    split_ifs with hmem <;> simp [hmem, he]
  · rw [hn] at hg
    split_ifs at hg
    have ho := (h.opened index tool hg).concat ev
    rwa [hin index (Option.isSome_iff_exists.2 ⟨tool, hg⟩), String.append_empty] at ho

/-- A block is started, or given input. -/
theorem Tracks.set (h : Tracks eve em bl) {index : Nat} {tool : PartialToolCall}
    (hfr : ∀ found ∈ ev.started, found ∉ eve.filterMap Event.started)
    (hi : ∀ found, found = index ∨ (bl.get found).isSome ↔
      found ∈ ev.started ∨ (bl.get found).isSome)
    (ho : Open (eve ++ [ev]) index tool.id tool.name tool.input)
    (hin : ∀ found, found ≠ index → ev.input found = "") :
    Tracks (eve ++ [ev]) (em ++ [[]]) (bl.set index tool) := by
  refine h.step (fun _ => none) .nil hfr (fun found => ?_) fun found tool' hg => ?_
  · have hf := hi found
    rw [Table.get_set]
    split_ifs with heq <;> simpa [heq] using hf
  · rw [Table.get_set] at hg
    split_ifs at hg with heq
    · cases hg
      exact heq ▸ ho
    · have hop := (h.opened found tool' hg).concat ev
      rwa [hin found heq, String.append_empty] at hop

theorem completes_completeTools (acc : ToolCallAccumulator) (ind : List Nat) :
    completes (acc.completeTools r ind).1 = (batch r acc.currentToolBlocks ind).map Prod.snd := by
  unfold ToolCallAccumulator.completeTools batch completes
  rw [filterMap_filterMap, map_filterMap]
  refine filterMap_congr fun i _ => ?_
  cases acc.currentToolBlocks.get i <;> rfl

theorem get_completeTools (acc : ToolCallAccumulator) (i : List Nat) (ind : Nat) :
    (acc.completeTools r i).2.currentToolBlocks.get ind =
      if ind ∈ i then none else acc.currentToolBlocks.get ind := by
  show (acc.currentToolBlocks.delete _).get ind = _
  rw [Table.get_delete]
  split_ifs with hmem <;> cases acc.currentToolBlocks.get ind <;> simp [hmem]

/-- The indexes of the open blocks, in order. -/
theorem pairwise_indices (bl : Table Nat PartialToolCall) :
    ((bl.rows.map Prod.fst).insertionSort (· ≤ ·)).Pairwise (· < ·) := by
  have hn := ((bl.rows.map Prod.fst).perm_insertionSort (· ≤ ·)).nodup_iff.2 bl.unique
  exact ((pairwise_insertionSort _ _).and hn).imp fun h => lt_of_le_of_ne h.1 h.2

theorem mem_indices {i : Nat} : i ∈ (bl.rows.map Prod.fst).insertionSort (· ≤ ·) ↔
    (bl.get i).isSome := by
  rw [mem_insertionSort, Option.isSome_iff_exists]
  simp [Table.mem_rows_iff]

theorem handleUsage_quiet (ev : Event) (acc : ToolCallAccumulator) :
    completes (handleUsage ev acc).1 = [] ∧
      (handleUsage ev acc).2.currentToolBlocks = acc.currentToolBlocks := by
  unfold handleUsage
  split
  · split_ifs <;> exact ⟨rfl, rfl⟩
  · split_ifs <;> exact ⟨rfl, rfl⟩
  · exact ⟨rfl, rfl⟩

/-- The end of the message completes the open blocks in index order. -/
theorem Tracks.drain {acc : ToolCallAccumulator} (h : Tracks eve em acc.currentToolBlocks)
    (he : ev.started = none) (hi : ∀ i, ev.input i = "") :
    ∃ c, completes (acc.drainAllTools r).1 = c.map Prod.snd ∧
      Tracks (eve ++ [ev]) (em ++ [c]) (acc.drainAllTools r).2.currentToolBlocks ∧
      (ev.ends = true → ∀ i, (acc.drainAllTools r).2.currentToolBlocks.get i = none) := by
  refine ⟨_, completes_completeTools r acc _, h.emit r (pairwise_indices _) he
    (fun i _ => hi i) (get_completeTools r acc _), fun _ i => ?_⟩
  rw [ToolCallAccumulator.drainAllTools, get_completeTools]
  split_ifs with hmem
  · rfl
  · rw [mem_indices] at hmem
    simpa using hmem

/-- An event completes some of the open blocks; the end of the message completes them all. -/
theorem Tracks.handleTools {acc : ToolCallAccumulator}
    (h : Tracks eve em acc.currentToolBlocks)
    (hfr : ∀ i ∈ ev.started, i ∉ eve.filterMap Event.started) :
    ∃ c, completes (handleTools r true ev acc).1 = c.map Prod.snd ∧
      Tracks (eve ++ [ev]) (em ++ [c]) (handleTools r true ev acc).2.currentToolBlocks ∧
      (ev.ends = true → ∀ i,
        (Anthropic.handleTools r true ev acc).2.currentToolBlocks.get i = none) := by
  have hq : ∀ {ev}, ev.started = none →
      (∀ i, (acc.currentToolBlocks.get i).isSome → ev.input i = "") →
      Tracks (eve ++ [ev]) (em ++ [[]]) acc.currentToolBlocks := fun he hi =>
    h.emit r .nil he hi fun _ => rfl
  cases ev with
  | blockStop i =>
    exact ⟨_, completes_completeTools r acc [i],
      h.emit r (pairwise_singleton _ _) rfl (fun _ _ => rfl)
        (get_completeTools r acc _), fun he => absurd he Bool.false_ne_true⟩
  | messageStop => exact h.drain r rfl fun _ => rfl
  | messageDelta u sr =>
    cases sr with
    | false => exact ⟨[], rfl, hq rfl fun _ _ => rfl, fun he => absurd he Bool.false_ne_true⟩
    | true => exact h.drain r rfl fun _ => rfl
  | inputJsonDelta i pj =>
    cases hg : acc.currentToolBlocks.get i with
    | none =>
      refine ⟨[], ?_, ?_, fun he => absurd he Bool.false_ne_true⟩ <;>
        rw [Anthropic.handleTools, ToolCallAccumulator.accumulateInput, hg]
      · rfl
      · refine hq rfl fun f hf => if_neg ?_
        rintro rfl
        rw [hg] at hf
        cases hf
    | some tool =>
      refine ⟨[], ?_, ?_, fun he => absurd he Bool.false_ne_true⟩ <;>
        rw [Anthropic.handleTools, ToolCallAccumulator.accumulateInput, hg]
      · rfl
      · refine h.set hfr (fun f => ?_) ?_ fun f hne => if_neg (Ne.symm hne)
        · simp only [Event.started, Option.not_mem_none, false_or, or_iff_right_iff_imp]
          rintro rfl
          rw [hg]
          rfl
        · have ho := (h.opened i tool hg).concat (.inputJsonDelta i pj)
          rwa [Event.input, if_pos rfl] at ho
  | toolUse i id name =>
    refine ⟨[], rfl, h.set hfr (fun f => ?_) ⟨eve, [], rfl, rfl⟩ fun _ _ => rfl, fun he => absurd he Bool.false_ne_true⟩
    rw [Event.started, Option.mem_some_iff, eq_comm]
  | _ => exact ⟨[], rfl, hq rfl fun _ _ => rfl, fun he => absurd he Bool.false_ne_true⟩

/-- **Every tool block that was started is completed once.** The calls of a chunk are those of
some indexes in order, each with the input that its block was given since its start; over the whole
message the indexes are those of the blocks that were started. -/
theorem tool_blocks_once (chunks : List Json)
    (hstarts : ((chunks.map Event.decode).filterMap Event.started).Nodup)
    (hends : (chunks.map Event.decode).getLast?.any Event.ends = true) :
    ∃ emitted : List (List (Nat × ToolCall)),
      (Stream.run (parseAnthropicChunk repair true) chunks {}).1.map completes =
        emitted.map (List.map Prod.snd) ∧
      (emitted.flatten.map Prod.fst).Perm ((chunks.map Event.decode).filterMap Event.started) ∧
      (∀ batch ∈ emitted, (batch.map Prod.fst).Pairwise (· < ·)) ∧
      ∀ place batch, emitted[place]? = some batch → ∀ entry ∈ batch,
        Open ((chunks.map Event.decode).take place) entry.1 entry.2.id entry.2.name
          entry.2.rawArguments := by
  have hrun := Stream.run_induction (parseAnthropicChunk repair true) (s := {})
    (P := fun chunks outs acc => ((chunks.map Event.decode).filterMap Event.started).Nodup →
      ∃ emitted, outs.map completes = emitted.map (List.map Prod.snd) ∧
        Tracks (chunks.map Event.decode) emitted acc.currentToolBlocks ∧
        ((chunks.map Event.decode).getLast?.any Event.ends = true →
          ∀ index, acc.currentToolBlocks.get index = none)) ?_ ?_ chunks
  · obtain ⟨emitted, ho, ht, hn⟩ := hrun hstarts
    refine ⟨emitted, ho, ?_, ht.ordered, ht.calls⟩
    refine (List.perm_ext_iff_of_nodup ht.once hstarts).2 fun index => ?_
    rw [ht.started, hn hends index]
    simp
  · exact fun _ => ⟨[], rfl, ⟨rfl, .nil, by simp, by simp, by simp, nofun, by simp⟩, nofun⟩
  · intro chunks outs acc c ih hstarts
    rw [List.map_append, List.map_singleton, List.filterMap_append, List.nodup_append'] at hstarts
    obtain ⟨hold, -, hf⟩ := hstarts
    obtain ⟨emitted, ho, ht, -⟩ := ih hold
    obtain ⟨hnil, hs⟩ := handleUsage_quiet (Event.decode c) acc
    rw [← hs] at ht
    obtain ⟨ca, hc, hne, hn⟩ := ht.handleTools repair fun index hi hmem =>
      hf hmem (List.mem_filterMap.2 ⟨Event.decode c, List.mem_singleton_self _, hi⟩)
    refine ⟨emitted ++ [ca], ?_, ?_, ?_⟩
    · rw [List.map_append, List.map_append, ho, List.map_singleton, List.map_singleton, ← hc]
      refine congrArg (_ ++ [·]) (List.filterMap_append.trans ?_)
      exact congrArg (· ++ _) hnil
    · rw [List.map_append]
      exact hne
    · rw [List.map_append, List.map_singleton, List.getLast?_concat]
      exact hn

/-- A chunk of an object with a type. -/
def chunk (kind : String) (members : List (String × Json)) : Json :=
  .object (("type", .string kind) :: members)

def startChunk (index : UInt64) (id : String) : Json :=
  chunk "content_block_start" [("index", .number (.posInt index)),
    ("content_block", .object [("type", .string "tool_use"), ("id", .string id)])]

/-- Two blocks, the second one started first; the end of the message completes them in order. -/
theorem tool_blocks_once_interleaved : ∃ emitted : List (List (Nat × ToolCall)),
    (Stream.run (parseAnthropicChunk (fun _ => none) true)
      [startChunk 1 "b", startChunk 0 "a", chunk "message_stop" []] {}).1.map completes =
        emitted.map (List.map Prod.snd) ∧ (emitted.flatten.map Prod.fst).Perm [1, 0] := by
  obtain ⟨emitted, ho, hp, -⟩ := tool_blocks_once (fun _ => none)
    [startChunk 1 "b", startChunk 0 "a", chunk "message_stop" []] (by decide) rfl
  exact ⟨emitted, ho, hp⟩

/-! ## Usage -/

/-- The counters that an event reports. -/
def Event.counters : Event → Option Counters
  | .messageDelta usage _ | .messageStart usage => usage
  | _ => none

/-- The last value that the events report for a counter. -/
def reported (counter : Counters → Option Nat) (events : List Event) : Nat :=
  (events.filterMap fun event => event.counters.bind counter).getLast?.getD 0

/-- The last value reported for each counter. -/
def reportedUsage (events : List Event) : Usage where
  inputTokens := reported Counters.inputTokens events
  outputTokens := reported Counters.outputTokens events
  cachedTokens := reported Counters.cacheReadInputTokens events
  cacheWriteInputTokens := reported Counters.cacheCreationInputTokens events

def usages (chunks : List StreamChunk) : List Usage :=
  chunks.filterMap fun
    | .usage usage => some usage
    | _ => none

/-- The message starts with its input, and no output, before any other counter is reported; a delta
reports output, with cache creation if it is zero, and nothing else. -/
def Event.Regular (before : List Event) : Event → Prop
  | .messageStart (some usage) => 0 < usage.inputTokens.getD 0 ∧ usage.outputTokens.getD 0 = 0 ∧
    ∀ event ∈ before, event.counters = none
  | .messageDelta (some usage) _ =>
    usage.inputTokens = none ∧ usage.cacheReadInputTokens = none ∧
      (usage.outputTokens.isSome ∧
          (0 < usage.outputTokens.getD 0 ∨ usage.cacheCreationInputTokens.isSome) ∨
        usage.outputTokens = none ∧ usage.cacheCreationInputTokens = none)
  | _ => True

theorem reported_concat (c : Counters → Option Nat) (eve : List Event) (ev : Event) :
    reported c (eve ++ [ev]) = (ev.counters.bind c).getD (reported c eve) := by
  unfold reported
  cases hc : ev.counters.bind c <;> simp [hc]

theorem handleTools_usage (ev : Event) (acc : ToolCallAccumulator) (ht : Bool) :
    usages (handleTools r ht ev acc).1 = [] ∧ (handleTools r ht ev acc).2.usage = acc.usage := by
  have hc : ∀ i, usages (acc.completeTools r i).1 = [] := by
    intro i
    refine List.filterMap_eq_nil_iff.2 fun c hch => ?_
    obtain ⟨ind, -, hi⟩ := List.mem_filterMap.1 hch
    obtain ⟨tool, -, rfl⟩ := Option.map_eq_some_iff.1 hi
    rfl
  unfold handleTools ToolCallAccumulator.accumulateInput
  split
  all_goals try split_ifs
  all_goals try split
  all_goals first | exact ⟨rfl, rfl⟩ | exact ⟨hc _, rfl⟩

/-- An event without counters. -/
theorem reportedUsage_concat (h : ev.counters = none) :
    reportedUsage (eve ++ [ev]) = reportedUsage eve := by
  simp [reportedUsage, reported_concat, h]

theorem reported_eq_zero (h : ∀ ev ∈ eve, ev.counters = none)
    (c : Counters → Option Nat) : reported c eve = 0 := by
  have hnil : (eve.filterMap fun ev => ev.counters.bind c) = [] :=
    List.filterMap_eq_nil_iff.2 fun ev he => by rw [h ev he]; rfl
  rw [reported, hnil]
  rfl

/-- A regular event brings the usage up to date, and emits it if it changes. -/
theorem handleUsage_regular {acc : ToolCallAccumulator} (ha : acc.usage = reportedUsage eve)
    (h : ev.Regular eve) :
    (handleUsage ev acc).2.usage = reportedUsage (eve ++ [ev]) ∧
      (usages (handleUsage ev acc).1).getLast?.getD acc.usage = (handleUsage ev acc).2.usage := by
  rcases ev with _ | _ | _ | _ | _ | _ | ⟨_ | ⟨i, o, read, c⟩, _⟩ |
    ⟨_ | ⟨i, o, read, c⟩⟩ | _ | _
  case messageDelta.some =>
    obtain ⟨rfl, rfl, ⟨hs, hc⟩ | ⟨rfl, rfl⟩⟩ := h
    · obtain ⟨o, rfl⟩ := Option.isSome_iff_exists.1 hs
      rw [handleUsage, if_pos (hc.imp_right .inr)]
      refine ⟨?_, rfl⟩
      simp [ToolCallAccumulator.updateUsage, ha, reportedUsage, reported_concat, Event.counters]
    · refine ⟨ha.trans ?_, rfl⟩
      simp [reportedUsage, reported_concat, Event.counters]
  case messageStart.some =>
    obtain ⟨hi, ho, hb⟩ := h
    rw [handleUsage, if_pos hi]
    refine ⟨?_, rfl⟩
    simp only [ToolCallAccumulator.updateUsage, reportedUsage, reported_concat, Event.counters,
      reported_eq_zero hb, Option.bind_some, Option.getD_some]
    rw [ho]
  all_goals exact ⟨ha.trans (reportedUsage_concat rfl).symm, rfl⟩

/-- A message that starts with 10 input tokens, and perhaps some output. -/
def messageStart (output : List (String × Json)) : Json :=
  chunk "message_start" [("message", .object [("usage", .object
    (("input_tokens", .number (.posInt 10)) :: output))])]

end Chevalier.Providers.Anthropic
