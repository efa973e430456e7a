import Chevalier.Foundations.Json
import Chevalier.Foundations.Places
import Chevalier.Foundations.Stream
import Chevalier.Foundations.Table

/-!
# The Responses stream

`parse_openai_responses_event` reads the events of a response one by one. A function call is opened
by its item, collects its arguments and is completed by the end of its arguments, or by the end of
its item where that did not happen before. An event is first read (`Event.decode`), then handled;
text, reasoning and the end of the response leave the calls alone and are read as `other`.

* `function_calls_once`: where no item is added after its end, every function call is completed at
  most once, and once if its item ended;
* `completed_twice`: an item that is added again after its end is completed again.
-/

namespace Chevalier.Providers.Responses

open Json List

/-! ## The parser -/

structure PartialToolCall where
  metadata : Json := .null
  callId : String := ""
  name : String := ""
  arguments : String := ""

/-- A complete tool call: the fields of the JSON object that is emitted. -/
structure ToolCall where
  id : String
  async : Option Json
  caller : Option Json
  providerItem : Json
  name : String
  arguments : String

inductive StreamChunk
  | toolCallPartial (id name arguments : String)
  | toolCallComplete (call : ToolCall)
  | toolMetadata (item : Json)

structure ResponsesToolAccumulator where
  currentToolCalls : Table Nat PartialToolCall := .empty
  completedCallIds : List String := []

/-- A text member. -/
def text (value : Json) (key : String) : Option String := (value.get key).bind asStr

def isFunctionCall (item : Json) : Bool := text item "type" = some "function_call"

def callId (item : Json) : Option String := (text item "call_id").or (text item "id")

/-- What an event says. -/
inductive Event
  | itemAdded (index : Nat) (item : Json)
  | argumentsDelta (index : Nat) (delta : String)
  | argumentsDone (index : Nat) (arguments : Option String)
  | itemDone (index : Nat) (item : Json)
  | other

def Event.decode (event : Json) : Event :=
  let index := ((event.get "output_index").bind asU64).getD 0
  match (text event "type").getD "" with
  | "response.output_item.added" =>
    (((event.get "item").filter isFunctionCall).map (.itemAdded index)).getD .other
  | "response.function_call_arguments.delta" =>
    ((text event "delta").map (.argumentsDelta index)).getD .other
  | "response.function_call_arguments.done" => .argumentsDone index (text event "arguments")
  | "response.output_item.done" => ((event.get "item").map (.itemDone index)).getD .other
  | _ => .other

namespace ResponsesToolAccumulator

/-- Change the call at an index, a blank one where there is none. -/
def update (acc : ResponsesToolAccumulator) (index : Nat)
    (f : PartialToolCall → PartialToolCall) : ResponsesToolAccumulator :=
  { acc with currentToolCalls :=
      acc.currentToolCalls.set index (f ((acc.currentToolCalls.get index).getD {})) }

def startTool (acc : ResponsesToolAccumulator) (index : Nat) (callId name : Option String) :
    ResponsesToolAccumulator :=
  acc.update index fun tool =>
    { tool with callId := callId.getD tool.callId, name := name.getD tool.name }

def appendArgs (acc : ResponsesToolAccumulator) (index : Nat) (delta : String) :
    ResponsesToolAccumulator :=
  acc.update index fun tool => { tool with arguments := tool.arguments ++ delta }

def setArgs (acc : ResponsesToolAccumulator) (index : Nat) (args : String) :
    ResponsesToolAccumulator :=
  acc.update index fun tool => { tool with arguments := args }

def setMetadata (acc : ResponsesToolAccumulator) (index : Nat) (item : Json) :
    ResponsesToolAccumulator :=
  acc.update index fun tool => { tool with metadata := item }

/-- The id of a call, made up from its index where it has none. -/
def idAt (index : Nat) (id : String) : String := if id = "" then "call_" ++ toString index else id

def toolPartial (acc : ResponsesToolAccumulator) (index : Nat) : List StreamChunk :=
  match acc.currentToolCalls.get index with
  | some tool =>
    if tool.name = "" then [] else [.toolCallPartial (idAt index tool.callId) tool.name tool.arguments]
  | none => []

def hasName (acc : ResponsesToolAccumulator) (index : Nat) : Bool :=
  (acc.currentToolCalls.get index).any fun tool => tool.name ≠ ""

def isCompleted (acc : ResponsesToolAccumulator) (index : Nat) (callId : Option String) : Bool :=
  idAt index (callId.getD "") ∈ acc.completedCallIds

def completeTool (acc : ResponsesToolAccumulator) (index : Nat) :
    List StreamChunk × ResponsesToolAccumulator :=
  match acc.currentToolCalls.get index with
  | some tool =>
    let id := idAt index tool.callId
    ([.toolCallComplete ⟨id, tool.metadata.get "async", tool.metadata.get "caller", tool.metadata,
        tool.name, tool.arguments⟩],
      { acc with
        currentToolCalls := acc.currentToolCalls.delete fun other _ => other = index
        completedCallIds := acc.completedCallIds ++ [id] })
  | none => ([], acc)

end ResponsesToolAccumulator

/-- The end of an item: a function call that is not completed yet is completed. -/
def handleItemDone (hasTools : Bool) (index : Nat) (item : Json) (acc : ResponsesToolAccumulator) :
    List StreamChunk × ResponsesToolAccumulator :=
  if isFunctionCall item && hasTools then
    if acc.isCompleted index (callId item) then ([], acc)
    else
      let acc := (acc.startTool index (callId item) (text item "name")).setMetadata index item
      (((text item "arguments").map (acc.setArgs index)).getD acc).completeTool index
  else ([], acc)

def handle (hasTools : Bool) (event : Event) (acc : ResponsesToolAccumulator) :
    List StreamChunk × ResponsesToolAccumulator :=
  match event with
  | .itemAdded index item =>
    if hasTools then
      let acc := (acc.startTool index (callId item) (text item "name")).setMetadata index item
      (acc.toolPartial index, acc)
    else ([], acc)
  | .argumentsDelta index delta =>
    if hasTools then ((acc.appendArgs index delta).toolPartial index, acc.appendArgs index delta)
    else ([], acc)
  | .argumentsDone index arguments =>
    if hasTools then
      let acc := (arguments.map (acc.setArgs index)).getD acc
      if acc.hasName index then acc.completeTool index else ([], acc)
    else ([], acc)
  | .itemDone index item =>
    let handled := handleItemDone hasTools index item acc
    ((if (item.get "call_id").isSome then [.toolMetadata item] else []) ++ handled.1, handled.2)
  | .other => ([], acc)

def parseOpenaiResponsesEvent (hasTools : Bool) (event : Json) (acc : ResponsesToolAccumulator) :
    List StreamChunk × ResponsesToolAccumulator :=
  handle hasTools (Event.decode event) acc

/-! ## Function calls -/

/-- A function call of the response. -/
structure Call where
  id : String
  name : String
  arguments : String

/-- Different calls have different ids, and none of them is blank. -/
structure Proper (calls : Nat → Option Call) : Prop where
  distinct : ∀ i j c d, calls i = some c → calls j = some d → c.id = d.id → i = j
  ids : ∀ i c, calls i = some c → c.id ≠ ""

/-- The event says of the function calls what they are. -/
def Event.Of (calls : Nat → Option Call) : Event → Prop
  | .itemAdded index item => ∃ call, calls index = some call ∧ callId item = some call.id ∧
    text item "name" = some call.name
  | .argumentsDone index arguments =>
    ∃ call, calls index = some call ∧ arguments = some call.arguments
  | .itemDone index item => isFunctionCall item = true → ∃ call, calls index = some call ∧
    callId item = some call.id ∧ text item "name" = some call.name ∧
    text item "arguments" = some call.arguments
  | _ => True

/-- The event ends the item of a function call. -/
def Event.ends (index : Nat) : Event → Bool
  | .itemDone place item => place = index && isFunctionCall item
  | _ => false

/-- The event ends the item of a function call, or its arguments. -/
def Event.finishes (index : Nat) : Event → Bool
  | .argumentsDone place _ => place = index
  | event => event.ends index

/-- The tool calls among the chunks. -/
def completes (chunks : List StreamChunk) : List ToolCall :=
  chunks.filterMap fun
    | .toolCallComplete call => some call
    | _ => none

/-- The call at an index, with the id and the name of the item, is not completed. -/
def Opened (calls : Nat → Option Call) (emitted : List ToolCall) (index : Nat)
    (tool : PartialToolCall) : Prop :=
  tool.name ≠ "" → ∃ call, calls index = some call ∧ tool.callId = call.id ∧
    tool.name = call.name ∧ call.id ∉ emitted.map ToolCall.id

/-- The calls that were completed after some events, and those that are open. -/
structure Tracks (calls : Nat → Option Call) (events : List Event) (emitted : List ToolCall)
    (acc : ResponsesToolAccumulator) : Prop where
  ids : acc.completedCallIds = emitted.map ToolCall.id
  once : (emitted.map ToolCall.id).Nodup
  known : ∀ tool ∈ emitted, ∃ index call, calls index = some call ∧ tool.id = call.id ∧
    tool.name = call.name ∧ tool.arguments = call.arguments ∧
    ∃ event ∈ events, event.finishes index = true
  opened : ∀ index tool, acc.currentToolCalls.get index = some tool →
    Opened calls emitted index tool
  ended : ∀ index call, calls index = some call → (∃ event ∈ events, event.ends index = true) →
    call.id ∈ emitted.map ToolCall.id

open ResponsesToolAccumulator

variable {calls ca : Nat → Option Call} {ev : List Event} {event eve : Event}
  {emitted em : List ToolCall} {acc next : ResponsesToolAccumulator} {index ind : Nat} {call : Call}

/-- An event that completes nothing. -/
theorem Tracks.quiet (h : Tracks ca ev em acc)
    (hi : next.completedCallIds = acc.completedCallIds)
    (ho : ∀ ind tool, next.currentToolCalls.get ind = some tool → Opened ca em ind tool)
    (he : ∀ ind call, ca ind = some call → eve.ends ind = true →
      call.id ∈ em.map ToolCall.id) : Tracks ca (ev ++ [eve]) em next := by
  refine ⟨hi.trans h.ids, h.once, fun tool ht => ?_, ho, fun ind call hc hen => ?_⟩
  · obtain ⟨ind, call, hc, hid, hn, ha, e, hev, hf⟩ := h.known tool ht
    exact ⟨ind, call, hc, hid, hn, ha, e, mem_append_left _ hev, hf⟩
  · obtain ⟨e, hev, hf⟩ := hen
    rcases mem_concat.1 hev with hev | rfl
    · exact h.ended ind call hc ⟨e, hev, hf⟩
    · exact he ind call hc hf

/-- An event that is not about function calls. -/
theorem Tracks.idle (h : Tracks ca ev em acc) {c : List StreamChunk}
    (hc : completes c = []) (hi : next.completedCallIds = acc.completedCallIds)
    (ht : next.currentToolCalls = acc.currentToolCalls) (he : ∀ ind, eve.ends ind = false) :
    Tracks ca (ev ++ [eve]) (em ++ completes c) next := by
  rw [hc, append_nil]
  refine h.quiet hi (ht ▸ h.opened) fun ind _ _ hen => ?_
  rw [he] at hen
  cases hen

theorem completes_toolPartial : completes (acc.toolPartial ind) = [] := by
  unfold ResponsesToolAccumulator.toolPartial
  split
  · split_ifs <;> rfl
  · rfl

/-- What is known of an open call stays known while its arguments are collected. -/
theorem Tracks.opened_update (h : Tracks ca ev em acc)
    {f : PartialToolCall → PartialToolCall} {i : Nat}
    (hf : ∀ tool, (f tool).callId = tool.callId ∧ (f tool).name = tool.name) (o : Nat)
    (tool : PartialToolCall) (hg : (acc.update i f).currentToolCalls.get o = some tool) :
    Opened ca em o tool := by
  rw [ResponsesToolAccumulator.update, Table.get_set] at hg
  split_ifs at hg with heq
  · cases hg
    subst heq
    unfold Opened
    rw [(hf _).1, (hf _).2]
    cases hg : acc.currentToolCalls.get o with
    | none => exact fun hn => absurd rfl hn
    | some tool => exact h.opened o tool hg
  · exact h.opened o tool hg

/-- The call at an index is completed. -/
theorem Tracks.complete (h : Tracks ca ev em acc)
    (hp : Proper ca) {tool : PartialToolCall} (hg : next.currentToolCalls.get ind = some tool)
    (hc : ca ind = some call) (hid : tool.callId = call.id)
    (hn : tool.name = call.name) (ha : tool.arguments = call.arguments)
    (hnew : call.id ∉ em.map ToolCall.id) (hf : eve.finishes ind = true)
    (he : ∀ o, eve.ends o = true → o = ind)
    (hi : next.completedCallIds = acc.completedCallIds)
    (ho : ∀ o, o ≠ ind → next.currentToolCalls.get o = acc.currentToolCalls.get o) :
    Tracks ca (ev ++ [eve]) (em ++ completes (next.completeTool ind).1)
      (next.completeTool ind).2 := by
  have hat : idAt ind tool.callId = call.id := by rw [hid, idAt, if_neg (hp.ids ind call hc)]
  have hm : (em ++ completes (next.completeTool ind).1).map ToolCall.id =
      em.map ToolCall.id ++ [call.id] := by
    rw [completeTool, hg, map_append, ← hat]
    rfl
  refine ⟨?_, ?_, fun f hfo => ?_, fun o f hgo hno => ?_, fun o k hk hen => ?_⟩
  · rw [hm, ← h.ids, ← hi, ← hat, completeTool, hg]
  · rw [hm]
    exact List.nodup_append'.2 ⟨h.once, nodup_singleton _, by simpa using hnew⟩
  · rw [completeTool, hg] at hfo
    rcases mem_concat.1 hfo with hold | rfl
    · obtain ⟨ind, call, hc, hid, hn, ha, e, hev, hf⟩ := h.known f hold
      exact ⟨ind, call, hc, hid, hn, ha, e, mem_append_left _ hev, hf⟩
    · exact ⟨ind, call, hc, hat, hn, ha, eve, mem_append_right _ (.head _), hf⟩
  · rw [completeTool, hg] at hgo
    obtain ⟨hgo, hne⟩ := Option.filter_eq_some_iff.1 (Table.get_delete.symm.trans hgo)
    have hne : o ≠ ind := by simpa using hne
    obtain ⟨k, hk, hkid, hkn, hnot⟩ := h.opened o f (ho o hne ▸ hgo) hno
    refine ⟨k, hk, hkid, hkn, ?_⟩
    rw [hm, mem_concat]
    exact fun hmem => hmem.elim hnot fun heq => hne (hp.distinct _ _ _ _ hk hc heq)
  · rw [hm, mem_concat]
    obtain ⟨e, hev, hfe⟩ := hen
    rcases mem_concat.1 hev with hev | rfl
    · exact .inl (h.ended o k hk ⟨e, hev, hfe⟩)
    · obtain rfl := he o hfe
      cases hc.symm.trans hk
      exact .inr rfl

theorem get_startTool {id name : Option String} {item : Json} (o : Nat) :
    ((acc.startTool ind id name).setMetadata ind item).currentToolCalls.get o =
      if o = ind then
        some ⟨item, id.getD ((acc.currentToolCalls.get ind).getD {}).callId,
          name.getD ((acc.currentToolCalls.get ind).getD {}).name,
          ((acc.currentToolCalls.get ind).getD {}).arguments⟩
      else acc.currentToolCalls.get o := by
  rw [setMetadata, update, Table.get_set, startTool, update, Table.get_set_self, Table.get_set]
  split_ifs <;> rfl

/-- The end of an item completes its call, unless it is completed. -/
theorem Tracks.handleItemDone (h : Tracks ca ev em acc)
    (hp : Proper ca) {item : Json}
    (hof : (Event.itemDone ind item).Of ca) :
    Tracks ca (ev ++ [.itemDone ind item])
      (em ++ completes (handleItemDone true ind item acc).1)
      (Responses.handleItemDone true ind item acc).2 := by
  have hen : ∀ o, (Event.itemDone ind item).ends o = true → o = ind := by
    intro o he
    simp only [Event.ends, Bool.and_eq_true, decide_eq_true_eq] at he
    exact he.1.symm
  unfold Responses.handleItemDone
  split_ifs with hf hco
  · rw [Bool.and_true] at hf
    obtain ⟨call, hc, hid, -⟩ := hof hf
    rw [isCompleted, hid, Option.getD_some, idAt, if_neg (hp.ids ind call hc), h.ids,
      decide_eq_true_eq] at hco
    rw [show completes _ = [] from rfl, append_nil]
    refine h.quiet rfl h.opened fun o k hk he => ?_
    cases hen o he
    cases hc.symm.trans hk
    exact hco
  · rw [Bool.and_true] at hf
    obtain ⟨call, hc, hid, hn, ha⟩ := hof hf
    rw [isCompleted, hid, Option.getD_some, idAt, if_neg (hp.ids ind call hc), h.ids,
      decide_eq_true_eq] at hco
    rw [ha]
    refine h.complete hp ((Table.get_set_self ..).trans (by rw [get_startTool, if_pos rfl])) hc
      ?_ ?_ rfl hco ?_ hen rfl fun o ho => ?_
    · rw [hid]; rfl
    · rw [hn]; rfl
    · simp [Event.finishes, Event.ends, hf]
    · exact (Table.get_set_of_ne ho).trans (by rw [get_startTool, if_neg ho])
  · refine h.idle rfl rfl rfl fun o => ?_
    rw [Bool.and_true, Bool.not_eq_true] at hf
    rw [Event.ends, hf, Bool.and_false]

/-- Every event keeps the account, if no item is added after its end. -/
theorem Tracks.handle (h : Tracks ca ev em acc)
    (hp : Proper ca) (hof : eve.Of ca)
    (hor : ∀ ind item, eve = .itemAdded ind item → ∀ e ∈ ev, e.finishes ind = false) :
    Tracks ca (ev ++ [eve]) (em ++ completes (handle true eve acc).1)
      (Responses.handle true eve acc).2 := by
  cases eve with
  | itemAdded ind item =>
    obtain ⟨call, hc, hid, hn⟩ := hof
    rw [Responses.handle, if_pos rfl, completes_toolPartial, append_nil]
    refine h.quiet rfl (fun other tool hg => ?_) nofun
    rw [get_startTool] at hg
    split_ifs at hg with heq
    · cases hg
      subst heq
      refine fun _ => ⟨call, hc, by rw [hid]; rfl, by rw [hn]; rfl, fun hmem => ?_⟩
      -- the call is not completed: its item would have ended before
      obtain ⟨tool, ht, heq⟩ := List.mem_map.1 hmem
      obtain ⟨i, c, hci, hti, -, -, e, he, hf⟩ := h.known tool ht
      cases hp.distinct _ _ _ _ hci hc (hti.symm.trans heq)
      rw [hor _ _ rfl e he] at hf
      cases hf
    · exact h.opened other tool hg
  | argumentsDelta ind d =>
    rw [Responses.handle, if_pos rfl, completes_toolPartial, append_nil]
    exact h.quiet rfl (h.opened_update fun _ => ⟨rfl, rfl⟩)
      fun _ _ _ he => absurd he Bool.false_ne_true
  | argumentsDone ind arguments =>
    obtain ⟨call, hc, rfl⟩ := hof
    have ho := h.opened_update (f := fun tool => { tool with arguments := call.arguments })
      (i := ind) fun _ => ⟨rfl, rfl⟩
    rw [Responses.handle, if_pos rfl]
    simp only [Option.map_some, Option.getD_some]
    split_ifs with hna
    · obtain ⟨c, hc', hid, hn, hnew⟩ :=
        ho ind _ Table.get_set_self (by simpa [hasName, setArgs, update] using hna)
      cases hc.symm.trans hc'
      exact h.complete hp Table.get_set_self hc hid hn rfl hnew
        (by simp [Event.finishes]) (fun _ he => absurd he Bool.false_ne_true) rfl
        fun other ho => Table.get_set_of_ne ho
    · rw [show completes _ = [] from rfl, append_nil]
      exact h.quiet rfl ho fun _ _ _ he => absurd he Bool.false_ne_true
  | itemDone ind item =>
    have hm : ∀ ch, completes ((if (item.get "call_id").isSome then [.toolMetadata item]
        else []) ++ ch) = completes ch := by
      intro ch
      split_ifs <;> rfl
    rw [Responses.handle, hm]
    exact h.handleItemDone hp hof
  | other => exact h.idle rfl rfl rfl fun _ => rfl

/-- **Every function call is completed at most once, and once if its item ends**, with the id, the
name and the arguments of the call, where no item is added after its end or the end of its
arguments. -/
theorem function_calls_once (calls : Nat → Option Call) (chunks : List Json)
    (hproper : Proper calls) (hof : ∀ chunk ∈ chunks, (Event.decode chunk).Of calls)
    (horder : ∀ place index item,
      (chunks.map Event.decode)[place]? = some (.itemAdded index item) →
        ∀ event ∈ (chunks.map Event.decode).take place, event.finishes index = false) :
    ∃ emitted, completes (Stream.run (parseOpenaiResponsesEvent true) chunks {}).1.flatten =
        emitted ∧
      (∀ tool ∈ emitted, ∃ index call, calls index = some call ∧ tool.id = call.id ∧
        tool.name = call.name ∧ tool.arguments = call.arguments) ∧
      (emitted.map ToolCall.id).Nodup ∧
      ∀ index call, calls index = some call →
        (∃ chunk ∈ chunks, (Event.decode chunk).ends index = true) →
        call.id ∈ emitted.map ToolCall.id := by
  have hrun := Stream.run_induction (parseOpenaiResponsesEvent true) (s := {})
    (P := fun chunks outs acc => (∀ chunk ∈ chunks, (Event.decode chunk).Of calls) →
      (∀ place index item, (chunks.map Event.decode)[place]? = some (.itemAdded index item) →
        ∀ event ∈ (chunks.map Event.decode).take place, event.finishes index = false) →
      Tracks calls (chunks.map Event.decode) (completes outs.flatten) acc) ?_ ?_ chunks hof horder
  · refine ⟨_, rfl, fun tool ht => ?_, hrun.once, fun index call hc ⟨chunk, hch, he⟩ => ?_⟩
    · obtain ⟨index, call, hc, hid, hn, ha, -⟩ := hrun.known tool ht
      exact ⟨index, call, hc, hid, hn, ha⟩
    · exact hrun.ended index call hc ⟨_, List.mem_map_of_mem hch, he⟩
  · exact fun _ _ => ⟨rfl, .nil, nofun, nofun, nofun⟩
  · intro chunks outs acc chunk ih hof hor
    rw [List.map_append] at hor ⊢
    rw [List.flatten_concat, completes, List.filterMap_append]
    refine (ih (fun c hc => hof c (List.mem_append_left _ hc)) fun place index item hp => ?_).handle
      hproper (hof chunk (List.mem_append_right _ (.head _))) fun index item heq => ?_
    · have hb := hor place index item (getElem?_append_of_some hp)
      rwa [List.take_append_of_le_length (lt_of_getElem? hp).le] at hb
    · have hb := hor _ index item (List.getElem?_concat_length.trans (congrArg some heq))
      rwa [List.take_left] at hb

/-! ### One call -/

/-- The item of the call is added or ends. -/
def itemEvent (kind : String) : Json :=
  .object [("item", .object [("arguments", .string "1"), ("call_id", .string "a"),
    ("name", .string "run"), ("type", .string "function_call")]), ("type", .string kind)]

def argumentsEvent : Json :=
  .object [("arguments", .string "1"), ("type", .string "response.function_call_arguments.done")]

def oneCall (index : Nat) : Option Call := if index = 0 then some ⟨"a", "run", "1"⟩ else none

theorem proper_oneCall : Proper oneCall := by
  constructor
  · intro i j c d hi hj _
    obtain ⟨rfl, -⟩ := Option.ite_none_right_eq_some.1 hi
    exact (Option.ite_none_right_eq_some.1 hj).1.symm
  · intro i c hi
    cases (Option.ite_none_right_eq_some.1 hi).2
    decide

theorem of_oneCall : ∀ c ∈ [itemEvent "response.output_item.added", argumentsEvent,
    itemEvent "response.output_item.done"], (Event.decode c).Of oneCall := by
  simp only [forall_mem_cons]
  exact ⟨⟨_, rfl, rfl, rfl⟩, ⟨_, rfl, rfl⟩, fun _ => ⟨_, rfl, rfl, rfl, rfl⟩, nofun⟩

/-- The usual order of events completes the call once. -/
theorem function_calls_once_oneCall : ∃ emitted, completes (Stream.run
      (parseOpenaiResponsesEvent true) [itemEvent "response.output_item.added", argumentsEvent,
        itemEvent "response.output_item.done"] {}).1.flatten = emitted ∧
    (emitted.map ToolCall.id).Nodup ∧ "a" ∈ emitted.map ToolCall.id := by
  obtain ⟨emitted, he, -, hn, hc⟩ := function_calls_once oneCall _ proper_oneCall of_oneCall fun
    | 0, _, _, _ => nofun
    | 1, _, _, h | 2, _, _, h => nomatch h
  exact ⟨emitted, he, hn, hc 0 _ rfl ⟨itemEvent "response.output_item.done", by simp, rfl⟩⟩

/-- The item ends, is added again, and its arguments end: the call is completed again. -/
theorem completed_twice : Proper oneCall ∧ (∀ chunk ∈ [itemEvent "response.output_item.done",
      itemEvent "response.output_item.added", argumentsEvent], (Event.decode chunk).Of oneCall) ∧
    (completes (Stream.run (parseOpenaiResponsesEvent true) [itemEvent "response.output_item.done",
      itemEvent "response.output_item.added", argumentsEvent] {}).1.flatten).map ToolCall.id =
      ["a", "a"] := by
  refine ⟨proper_oneCall, fun chunk hc => of_oneCall chunk ?_, by decide⟩
  simp only [List.mem_cons, List.not_mem_nil, or_false] at hc ⊢
  tauto

end Chevalier.Providers.Responses
