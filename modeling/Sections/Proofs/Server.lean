import Sections.Proofs.Tool
import Sections.Server

namespace Sections.Server

-- The path of the file that a message asks to write to.
def Message.target? : Message → Option Text
  | .request method params =>
      if method = "tools/call".units then
        (Tool.ofName? (nameOf params)).bind fun tool =>
          tool.target? ((params.bind (Json.field? "arguments".units)).getD .null)
      else none
  | .signal _ => none

-- What the server logs about a message: only a signal that ends it.
def Message.farewell? : Message → Option Text
  | .signal name =>
      if name ∈ handledSignals then
        some ("[SHUTDOWN] Received ".units ++ name ++ ", exiting...".units)
      else none
  | .request _ _ => none

variable {protocol : Protocol} {state : State} {messages : List Message} {message : Message}

-- What one message can do: a result may come with one file written to, a signal may end the server,
-- and all else leaves it as it is.
inductive Handled (state : State) (message : Message) : Reply × State → Prop where
  | kept (reply : Reply) (h : message.farewell? = none) : Handled state message (reply, state)
  | wrote (value : Json) {path text : Text} {after : FileTree} (h : message.farewell? = none)
      (ht : message.target? = some path)
      (hw : state.tree.Overwritten (state.settings.resolve state.tree path) text after) :
      Handled state message (.result value, { state with tree := after })
  | ended (name : Text) {line : Text} (h : message.farewell? = some line) :
      Handled state message
        (.signalled name (some 0), { state with log := state.log ++ [line], exit := some 0 })

theorem answer_handled (protocol : Protocol) (state : State) (method : Text)
    (params : Option Json) :
    Handled state (.request method params) (handle protocol state (.request method params)) := by
  unfold handle answer
  by_cases hm : method = "tools/call".units
  · simp only [if_pos hm, callTool]
    cases ht : Tool.ofName? (nameOf params) with
    | none => exact .kept _ rfl
    | some tool =>
        simp only
        generalize hargs : params.bind (Json.field? "arguments".units) = args
        cases hc : tool.call? args with
        | error e =>
            simp only [Tool.run, hc, FileWork.perform_throw]
            exact .kept _ rfl
        | ok call =>
            have hleaves := @ToolCall.run_leaves state.settings state.tree call
            simp only [Tool.run, hc]
            generalize (call.run state.settings).perform state.tree = done at hleaves ⊢
            cases hleaves with
            | failed e => exact .kept _ rfl
            | kept answer _ => exact .kept _ rfl
            | overwrote htarget _ hw =>
                refine .wrote _ rfl ?_ hw
                rw [Message.target?, if_pos hm, ht, hargs, Option.bind_some,
                  ← Tool.target?_of_call? hc, htarget]
  · simp only [if_neg hm]
    split_ifs
    · exact .kept _ rfl
    · exact .kept _ rfl
    · cases getPrompt state params <;> exact .kept _ rfl
    · cases protocol.answer about method params <;> exact .kept _ rfl

theorem handle_handled (protocol : Protocol) (state : State) (message : Message) :
    Handled state message (handle protocol state message) := by
  cases message with
  | request method params => exact answer_handled protocol state method params
  | signal name =>
      unfold handle
      simp only
      split_ifs with hn
      · exact .ended name (if_pos hn)
      · exact .kept _ (if_neg hn)

-- A request that is answered with a failure leaves no trace.
theorem handle_fault {fault : Fault} (h : (handle protocol state message).1 = .fault fault) :
    (handle protocol state message).2 = state := by
  have hstep := handle_handled protocol state message
  generalize handle protocol state message = done at h hstep ⊢
  cases hstep with
  | kept reply _ => rfl
  | wrote value _ _ _ => contradiction
  | ended name _ => contradiction

-- The files that messages ask to write to.
def State.Targets (state : State) (messages : List Message) (route : Route) : Prop :=
  ∃ message ∈ messages, ∃ path, message.target? = some path ∧
    state.tree.LeadsTo (state.settings.resolve state.tree path) route

-- What messages can do to a server. Its settings stay, only files that it was asked to write to can
-- change, and it ends with a line in the log for each signal that ends it.
structure State.Follows (state : State) (messages : List Message) (last : State) : Prop where
  settings : last.settings = state.settings
  tree : state.tree.Confined (state.Targets messages) last.tree
  log : last.log = state.log ++ messages.filterMap Message.farewell?
  exit : last.exit = if messages.any (·.farewell?.isSome) then some 0 else state.exit

theorem Handled.follows {reply : Reply} {next : State} (h : Handled state message (reply, next)) :
    state.Follows [message] next := by
  cases h with
  | kept _ h => exact ⟨rfl, .refl _ _, by simp [h], by simp [h]⟩
  | wrote value h ht hw =>
      exact ⟨rfl, hw.confined.mono fun route hr => ⟨message, by simp, _, ht, hr⟩, by simp [h],
        by simp [h]⟩
  | ended name h => exact ⟨rfl, .refl _ _, by simp [h], by simp [h]⟩

namespace State.Follows

variable {next last : State} {rest : List Message}

-- Later messages name the same files as they would have before.
theorem targets (h : state.Follows messages next) {route : Route} (ht : next.Targets rest route) :
    state.Targets rest route := by
  obtain ⟨message, hm, path, hp, hl⟩ := ht
  have hsame := h.tree.toSamePlaces
  refine ⟨message, hm, path, hp, ?_⟩
  have hroute : next.settings.resolve next.tree path = state.settings.resolve state.tree path := by
    unfold Settings.resolve
    rw [h.settings, hsame.workingDirectory]
  exact hroute ▸ hsame.symm.leadsTo hl

theorem append (h : state.Follows messages next) (h' : next.Follows rest last) :
    state.Follows (messages ++ rest) last where
  settings := h'.settings.trans h.settings
  tree := by
    refine (h.tree.mono ?_).trans (h'.tree.mono ?_)
    · rintro route ⟨message, hm, hrest⟩
      exact ⟨message, List.mem_append_left _ hm, hrest⟩
    · intro route hr
      obtain ⟨message, hm, hrest⟩ := h.targets hr
      exact ⟨message, List.mem_append_right _ hm, hrest⟩
  log := by rw [h'.log, h.log, List.filterMap_append, List.append_assoc]
  exit := by
    rw [h'.exit, h.exit, List.any_append]
    cases messages.any _ <;> cases rest.any _ <;> rfl

end State.Follows

theorem handleAll_follows (protocol : Protocol) (state : State) (messages : List Message) :
    state.Follows messages (handleAll protocol state messages).2 := by
  induction messages generalizing state with
  | nil => exact ⟨rfl, .refl _ _, by simp [handleAll], by simp [handleAll]⟩
  | cons message rest ih =>
      exact (handle_handled protocol state message).follows.append (ih _)

-- Every message has its reply.
theorem length_replies (protocol : Protocol) (state : State) (messages : List Message) :
    (handleAll protocol state messages).1.length = messages.length := by
  induction messages generalizing state with
  | nil => rfl
  | cons message rest ih => exact congrArg (· + 1) (ih _)

-- A server that starts has changed no file by then.
theorem start_tree {tree : FileTree} {env : Environment} (h : start tree env = .ok state) :
    state.tree = tree := by
  unfold start at h
  split at h
  · contradiction
  · split at h
    · contradiction
    · rw [← Except.ok.inj h]

-- All that a session can change are files that it was asked to write to.
theorem session_confined (protocol : Protocol) (tree : FileTree) (env : Environment)
    (messages : List Message) :
    tree.Confined (fun route => ∃ state, start tree env = .ok state ∧ state.Targets messages route)
      (session protocol tree env messages).tree := by
  unfold session
  cases hs : start tree env with
  | error e => exact .refl _ _
  | ok state =>
      have hfollows := (handleAll_follows protocol state messages).tree
      rw [start_tree hs] at hfollows
      exact hfollows.mono fun route hr => ⟨state, rfl, hr⟩

end Sections.Server
