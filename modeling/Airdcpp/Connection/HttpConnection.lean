import Airdcpp.Connection.BufferedSocket
import Airdcpp.Lib.Runs
import Airdcpp.Util.LinkUtil

/-!
# `Connection/HttpConnection` — what a web server can make the client do

The handlers of `HttpConnection` for the events of its socket. They are `noexcept`: where one of
their `substr`s is out of range the program ends, and the handler is `none`.

A `Client` is a connection with what its socket has fired so far. Its operations are the ones the
server decides on: that a request gets its connection, that bytes arrive, and the rounds of
`threadRead` on these bytes. A redirection takes the listener off the old socket, whose loop goes on
by itself, and asks for a new one.

What the program answers to its own listeners (`HttpConnectionListener`) is kept in `fired`. The
request that is sent, and with it the headers of the options, plays no part.
-/

namespace Airdcpp

inductive ConnectionStates
  | unknown
  | ok
  | failed
  | moved
  | chunked
deriving DecidableEq, Repr

inductive RequestType
  | get
  | post
  | unknown
deriving DecidableEq, Repr

/-- The `socket` of an `HttpConnection`: there is none, it waits for its connection, or bytes may
    come from it. -/
inductive HttpSocket
  | null
  | pending
  | connected
deriving DecidableEq, Repr

/-- `HttpConnectionListener` -/
inductive HttpEvent
  | complete (url : Str)
  | failed (error : Str)
  | redirected (location : Str)
  | data (inbuf : Str) (bufpos : Int) (aLen : Nat)
deriving DecidableEq, Repr

/-- Settings, and what the system decides. -/
structure HttpEnv where
  locale : Locale
  httpProxy : Str
  /-- What `socket->connect` throws. -/
  connectError : (server port : Str) → Option Str
  maxCommandLength : Nat

structure HttpConnection where
  currentUrl : Str := []
  method : Str := []
  file : Str := []
  server : Str := []
  port : Str := str "80"
  query : Str := []
  mimeType : Str := []
  size : Int := -1
  done : Int := 0
  connState : ConnectionStates := .unknown
  connType : RequestType := .unknown
  socket : HttpSocket := .null
  isUnique : Bool
  headers : List (Str × Str) := []
  fired : List HttpEvent := []
  deleted : Bool := false
deriving DecidableEq, Repr

namespace HttpConnection

open BufferedSocket (Event toSizeT)

/-- `static_cast<int64_t>` -/
def toInt64 (n : Int) : Int := n.bmod (2 ^ 64)

/-- `s1 (s2)` -/
def withUrl (error url : Str) : Str := error ++ str " (" ++ url ++ str ")"

def fire (h : HttpConnection) (e : HttpEvent) : HttpConnection := { h with fired := h.fired ++ [e] }

def abortRequest (h : HttpConnection) : HttpConnection := { h with socket := .null }

/-- `if (isUnique) delete this;` -/
def release (h : HttpConnection) : HttpConnection :=
  if h.isUnique then { h with deleted := true } else h

/-- Server, port, file and query of the request. -/
def prepareServer (env : HttpEnv) (h : HttpConnection) : Option HttpConnection := do
  let given : LinkUtil.UrlParts :=
    { host := h.server, port := h.port, path := h.file, query := h.query }
  if env.httpProxy = [] then
    let parts ← LinkUtil.decodeUrl h.currentUrl given
    return { h with
      server := parts.host, port := parts.port, query := parts.query
      file := if parts.path = [] then str "/" else parts.path }
  else
    let parts ← LinkUtil.decodeUrl env.httpProxy given
    return { h with
      server := parts.host, port := parts.port, query := parts.query, file := h.currentUrl }

/-- `socket->connect`, and what catches its exceptions -/
def connect (env : HttpEnv) (h : HttpConnection) : HttpConnection :=
  match env.connectError h.server h.port with
  | none => h
  | some e => ({ h with connState := .failed }.fire (.failed (withUrl e h.currentUrl))).release

def prepareRequest (env : HttpEnv) (h : HttpConnection) (connType : RequestType) :
    Option HttpConnection := do
  let h := { h with
    currentUrl := LinkUtil.sanitizeUrl h.currentUrl
    size := -1, done := 0, connState := .unknown, connType := connType
    method := if connType = RequestType.post then str "POST" else str "GET" }
  -- set download type
  let suffix ← substr h.currentUrl (subSizeT h.currentUrl.length 4) h.currentUrl.length
  let h := { h with
    mimeType :=
      if Util.stricmp env.locale 5 suffix (str ".bz2") = 0 then str "application/x-bzip2" else [] }
  let h ← prepareServer env h
  return connect env { h with
    file := if h.query = [] then h.file else h.file ++ chr '?' :: h.query
    port := if h.port = [] then str "80" else h.port
    socket := .pending }

def downloadFile (env : HttpEnv) (h : HttpConnection) (aFile : Str) : Option HttpConnection :=
  prepareRequest env { h with currentUrl := aFile } .get

/-! ## Lines -/

/-- What a handler has made of the connection, and the argument of `setDataMode`. -/
abbrev Handled := Option (HttpConnection × Option Int)

def onChunkSize (h : HttpConnection) (aLine : Str) : Handled := do
  let chunkSizeStr ←
    match find aLine (str ";") 0 with
    | none => substr aLine 0 (aLine.length - 1)
    | some i => substr aLine 0 i
  let chunkSize := Util.strtoul16 chunkSizeStr
  if chunkSize = 0 then
    return ({ h.abortRequest.fire (.complete h.currentUrl) with connState := .ok }.release, none)
  else if chunkSize = Util.ULONG_MAX then
    let error := withUrl (str "Transfer-encoding error") h.currentUrl
    return ({ h.abortRequest.fire (.failed error) with connState := .failed }.release, none)
  else return (h, some (toInt64 chunkSize))

def onStatus (h : HttpConnection) (aLine : Str) : HttpConnection :=
  if (find aLine (str "200") 0).isSome then { h with connState := .ok }
  else if (find aLine (str "301") 0).isSome || (find aLine (str "302") 0).isSome then
    { h with connState := .moved }
  else
    -- a CR would cause issues in HTTP messages
    let error := if 1 < aLine.length ∧ aLine.getLast? = some 13 then aLine.dropLast else aLine
    let h := h.abortRequest.fire (.failed (withUrl error h.currentUrl))
    if h.isUnique then h.release else { h with connState := .failed }

/-- The new location, also of redirects with relative paths. -/
def resolve (h : HttpConnection) (location : Str) : Option (HttpConnection × Str) := do
  if (find location (str "://") 0).isSome then return (h, location)
  let first ← charAt location 0
  if first = chr '/' then
    -- 302 doesn't contain the query, use temp one
    let parts ← LinkUtil.decodeUrl h.currentUrl { host := h.server, port := h.port, path := h.file }
    let h := { h with server := parts.host, port := parts.port, file := parts.path }
    -- `port != "80" || port != "443"` always holds
    return (h, parts.protocol ++ str "://" ++ parts.host ++ chr ':' :: parts.port ++ location)
  else
    let directory ←
      substr h.currentUrl 0 ((PathUtil.rfind (chr '/') h.currentUrl).elim 0 (· + 1))
    return (h, directory ++ location)

def onLocation (env : HttpEnv) (h : HttpConnection) (aLine : Str) : Option HttpConnection := do
  let h := h.abortRequest
  let location ← substr aLine 10 (aLine.length - 10)
  let (h, location) ← h.resolve (LinkUtil.sanitizeUrl location)
  if location = h.currentUrl then
    let error := str "Endless redirection loop (" ++ h.currentUrl ++ str ")"
    return ({ h with connState := .failed }.fire (.failed error)).release
  let location := if h.query = [] then location else location ++ chr '?' :: h.query
  (h.fire (.redirected location)).downloadFile env location

def onHeader (h : HttpConnection) (aLine : Str) : Option HttpConnection := do
  let separator := findFirstOf aLine [chr ':'] 0
  if separator.any (· ≤ 1) then return h
  let name ← substr aLine 0 (separator.getD aLine.length)
  let value ← substr aLine (separator.elim 0 (· + 1)) aLine.length
  let name := Util.trimIf Util.isSpace name
  let value := Util.trimIf Util.isSpace value
  let h :=
    if name = str "Content-Length" then { h with size := Util.toInt value }
    else if h.mimeType = [] then
      if name = str "Content-Encoding" then
        if value = str "x-bzip2" then { h with mimeType := str "application/x-bzip2" } else h
      else if name = str "Content-Type" then { h with mimeType := value }
      else h
    else h
  return { h with
    headers := if (h.headers.lookup name).isSome then h.headers else h.headers ++ [(name, value)] }

/-- The line announces a location. -/
def isLocation (env : HttpEnv) (aLine : Str) : Bool :=
  (Util.findSubString env.locale aLine (str "Location")).isSome

def onLine (env : HttpEnv) (h : HttpConnection) (aLine : Str) : Handled := do
  if h.connState = .chunked ∧ 1 < aLine.length then h.onChunkSize aLine
  else if h.connState = .unknown then return (h.onStatus aLine, none)
  else if h.connState = .moved ∧ isLocation env aLine then
    return (← h.onLocation env aLine, none)
  else
    let first ← charAt aLine 0
    if first = 13 then
      if h.size ≠ -1 then return (h, some h.size)
      else return ({ h with connState := .chunked }, none)
    else if 2 < aLine.length then return (← h.onHeader aLine, none)
    else return (h, none)

/-! ## Other events -/

def onFailed (h : HttpConnection) (aLine : Str) : HttpConnection :=
  ({ h.abortRequest with connState := .failed }.fire (.failed (withUrl aLine h.currentUrl))).release

def onModeChange (h : HttpConnection) : HttpConnection :=
  if h.connState ≠ .chunked then (h.abortRequest.fire (.complete h.currentUrl)).release else h

def onData (h : HttpConnection) (inbuf : Str) (bufpos : Int) (aLen : Nat) : HttpConnection :=
  if h.size ≠ -1 ∧ toSizeT (h.size - h.done) < aLen then
    let error := withUrl (str "Too much data in response body") h.currentUrl
    ({ h.abortRequest with connState := .failed }.fire (.failed error)).release
  else { h.fire (.data inbuf bufpos aLen) with done := toInt64 (h.done + aLen) }

def on (env : HttpEnv) (h : HttpConnection) : Event → Handled
  | .line aLine => h.onLine env aLine
  | .modeChange => some (h.onModeChange, none)
  | .data inbuf bufpos aLen => some (h.onData inbuf bufpos aLen, none)

/-! ## The client -/

/-- An `HttpConnection` as the listener of a socket, and all that the socket has fired. -/
structure Watch where
  http : HttpConnection
  events : List Event := []
  /-- An exception has left a handler. -/
  terminated : Bool := false

def listen (env : HttpEnv) : BufferedSocket.Listener Watch := fun w e =>
  let w := { w with events := w.events ++ [e] }
  if w.terminated ∨ w.http.socket ≠ .connected then (w, none)
  else
    match w.http.on env e with
    | none => ({ w with terminated := true }, none)
    | some (http, aBytes) => ({ w with http := http }, aBytes)

structure Client where
  conn : BufferedSocket.Connection Watch
  reading : Option (BufferedSocket.Reading Watch) := none

inductive ClientOp
  | connected
  | received (read : BufferedSocket.SocketRead)
  | round

/-- `BufferedSocket::fail` -/
def Client.fail (conn : BufferedSocket.Connection Watch) (e : Str) : Client where
  conn :=
    { conn with
      listener :=
        if conn.listener.http.socket = .connected then
          { conn.listener with http := conn.listener.http.onFailed e }
        else conn.listener }

/-- The listener, also while `threadRead` runs. -/
def Client.watch (c : Client) : Watch := c.reading.elim c.conn.listener fun r => r.listener

def Client.next (env : HttpEnv) (c : Client) : ClientOp → Client
  | .connected =>
    { conn :=
        { socket := { separator := 0x0a }
          listener :=
            { c.conn.listener with http := { c.conn.listener.http with socket := .connected } } } }
  | .received read =>
    if read.left = -1 then c
    else if read.left = 0 then Client.fail c.conn BufferedSocket.CONNECTION_CLOSED
    else { c with reading := some (BufferedSocket.startReading c.conn read) }
  | .round =>
    match c.reading with
    | none => c
    | some r =>
      match BufferedSocket.round (listen env) r with
      | none => c
      | some (.inr r) => { c with reading := some r }
      | some (.inl conn) =>
        match BufferedSocket.checkLength env.maxCommandLength conn with
        | .ok conn => { conn := conn }
        | .error e => Client.fail conn e

def Client.allowed (c : Client) : ClientOp → Prop
  | .connected => c.reading = none ∧ c.watch.http.socket = .pending
  | .received _ => c.reading = none ∧ c.watch.http.socket = .connected ∧ c.watch.terminated = false
  | .round => c.reading.isSome ∧ c.watch.terminated = false

def client (env : HttpEnv) : Lib.System Client ClientOp where
  next := Client.next env
  allowed := Client.allowed

/-- The request for a URL is on its way, over a new socket. -/
def Requested (env : HttpEnv) (c : Client) : Prop :=
  ∃ aUrl isUnique http, str "://" <:+: aUrl ∧
    downloadFile env { isUnique := isUnique } aUrl = some http ∧
    c = { conn := { socket := { separator := 0x0a }, listener := { http := http } } }

end HttpConnection
end Airdcpp
