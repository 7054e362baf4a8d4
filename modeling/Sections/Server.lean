import Sections.Server.Catalogue
import Sections.Tool

namespace Sections.Server

-- What reaches a running server: a request, or a signal of the system.
inductive Message where
  | request (method : Text) (params : Option Json)
  | signal (name : Text)
  deriving Repr

-- A failure as the caller sees it.
structure Fault where
  code : Int
  message : Text
  deriving Repr, DecidableEq

-- What the library of the protocol does: it answers the methods that the server leaves to it, from
-- what the server says of itself, and gives a failure of the server its code.
structure Protocol where
  answer (about : About) (method : Text) (params : Option Json) : Except Fault Json
  failureCode : Int

-- Why the server does not answer.
inductive Refusal where
  | unknownTool (name : Text)
  | unknownPrompt (name : Text)
  | tool (e : ToolError)
  deriving Repr

namespace Refusal

def message : Refusal → Text
  | .unknownTool name => "Unknown tool: ".units ++ name
  | .unknownPrompt name => "Unknown prompt: ".units ++ name
  | .tool e => e.message

def fault (protocol : Protocol) (refusal : Refusal) : Fault :=
  ⟨protocol.failureCode, refusal.message⟩

end Refusal

inductive Reply where
  | result (value : Json)
  | fault (fault : Fault)
  | signalled (name : Text) (exit : Option Nat)

-- A server with its settings, its files, the lines it has logged and the exit code, if
-- something asked it to exit.
structure State where
  settings : Settings
  tree : FileTree
  log : List Text
  exit : Option Nat

-- The signals that end the server.
def handledSignals : List Text := ["SIGINT".units, "SIGTERM".units]

def nameOf (params : Option Json) : Text :=
  match params.bind (Json.field? "name".units) with
  | some (.string name) => name
  | _ => "undefined".units

-- Calls a tool by name with arguments that may be absent.
def callTool (state : State) (params : Option Json) : Except Refusal Json × FileTree :=
  let name := nameOf params
  match Tool.ofName? name with
  | none => (.error (.unknownTool name), state.tree)
  | some tool =>
      match (tool.run state.settings (params.bind (Json.field? "arguments".units))).perform
          state.tree with
      | (.error e, tree) => (.error (.tool e), tree)
      | (.ok answer, tree) => (.ok answer.json, tree)

def getPrompt (state : State) (params : Option Json) : Except Refusal Json :=
  let name := nameOf params
  if name = promptName.units then .ok (prompt state.settings.baseDir)
  else .error (.unknownPrompt name)

section Protocol

variable (protocol : Protocol)

-- The answer to a request and the files after it.
def answer (state : State) (method : Text) (params : Option Json) : Except Fault Json × FileTree :=
  if method = "tools/call".units then
    let (result, tree) := callTool state params
    (result.mapError (·.fault protocol), tree)
  else if method = "tools/list".units then (.ok tools, state.tree)
  else if method = "prompts/list".units then (.ok prompts, state.tree)
  else if method = "prompts/get".units then
    ((getPrompt state params).mapError (·.fault protocol), state.tree)
  else (protocol.answer about method params, state.tree)

-- A request changes nothing but files.
def handle (state : State) : Message → Reply × State
  | .request method params =>
      match answer protocol state method params with
      | (.ok value, tree) => (.result value, { state with tree := tree })
      | (.error fault, tree) => (.fault fault, { state with tree := tree })
  | .signal name =>
      if name ∈ handledSignals then
        (.signalled name (some 0),
          { state with
            log := state.log ++ ["[SHUTDOWN] Received ".units ++ name ++ ", exiting...".units]
            exit := some 0 })
      else (.signalled name none, state)

def handleAll : State → List Message → List Reply × State
  | state, [] => ([], state)
  | state, message :: rest =>
      let (reply, next) := handle protocol state message
      let (replies, last) := handleAll next rest
      (reply :: replies, last)

end Protocol

def startLog (settings : Settings) : List Text :=
  ["Section editor configuration loaded:".units,
   "  Base directory: ".units ++ settings.baseDir,
   "  Line separator: ".units ++ Json.quote settings.lineSeparator,
   "  Concurrency: ".units ++
     (if settings.concurrency.isPositive then settings.concurrency.text else "sequential".units),
   "[STARTUP] Connecting stdio transport...".units,
   "Section Editor MCP Server running on stdio".units]

-- The settings must load and their base directory must be there.
def start (tree : FileTree) (env : Environment) : Except LoadError State :=
  match Settings.load tree none env with
  | .error e => .error e
  | .ok settings =>
      match Settings.validate tree settings with
      | .error e => .error (.settings e)
      | .ok () => .ok ⟨settings, tree, startLog settings, none⟩

-- What a whole session shows.
structure Session where
  exit : Option Nat
  log : List Text
  signals : List Text
  replies : List Reply
  tree : FileTree

-- A server that cannot start logs why and exits.
def session (protocol : Protocol) (tree : FileTree) (env : Environment) (messages : List Message) :
    Session :=
  match start tree env with
  | .error e => ⟨some 1, ["Fatal error during startup: ".units ++ e.message], [], [], tree⟩
  | .ok state =>
      let (replies, last) := handleAll protocol state messages
      ⟨last.exit, last.log, handledSignals, replies, last.tree⟩

end Sections.Server
