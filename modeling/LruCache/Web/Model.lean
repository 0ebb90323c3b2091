import LruCache.Cache.Model
import LruCache.Text.Find
import LruCache.Text.Registry

/-!
# The web server as the code has it

A shallow embedding of `src/web_server.cpp`: what one turn of the loop of `main` makes of a
request that has arrived. The sockets are left out. `get_json_state`, which `lru_cache.h` does
not declare, is a parameter, as are `read_file`, the hash function and the order in which the two
arguments of `put` are evaluated.

Deliberate scope limits:

* Allocation succeeds. The code has no handler for the `std::bad_alloc` of a reset to a capacity
  that there is no memory for, and ends.
* A request is what one `recv` has put into the buffer; `LruCache.Web.Connections` adds the
  sockets.
* What is printed on the console of the server is left out.
-/

namespace LruCache

/-- What the server takes from outside of the code. -/
structure Platform where
  /-- `std::hash<std::string>`. -/
  hash : String → UInt64
  /-- `cache->get_json_state(formatter)`. -/
  jsonState : Cache → (UInt64 → String) → String
  readFile : String → String
  /-- Is the value turned into a number before the key? -/
  valueFirst : Bool

/-- The cache and `g_string_registry`. -/
structure Server where
  cache : Cache
  registry : Registry

/-- What is sent back. -/
inductive Response where
  | ok (contentType body : String)
  | notFound
deriving DecidableEq

def Response.body : Response → String
  | .ok _ body => body
  | .notFound => "Not Found"

/-- `response`, as it goes into the socket. -/
def Response.text : Response → String
  | .ok contentType body =>
      "HTTP/1.1 200 OK\r\nConnection: close\r\n" ++
        "Content-Length: " ++ toString body.length ++ "\r\n" ++
        "Content-Type: " ++ contentType ++ "\r\n\r\n" ++ body
  | .notFound => "HTTP/1.1 404 Not Found\r\nConnection: close\r\n\r\nNot Found"

/-- `get_query_param`. -/
def getQueryParam (path param : String) : String :=
  match find path (param ++ "=") 0 with
  | none => ""
  | some pos =>
      let pos := pos + (param.length + 1)
      let stop := (find path "&" pos).getD path.length
      substr path pos (some (stop - pos))

/-- `request.substr(5, request.find(" HTTP") - 5)`. -/
def requestPath (request : String) : String :=
  substr request 5 ((find request " HTTP" 0).map (· - 5))

section Server

variable (platform : Platform)

/-- The body that most requests are answered with. -/
def Server.stateText (server : Server) : String :=
  platform.jsonState server.cache (fromUint64 server.registry)

def Server.jsonResponse (server : Server) : Response :=
  .ok "application/json" (server.stateText platform)

/-- `cache->put(to_uint64(key), to_uint64(val))`. -/
def Server.put (key val : String) (server : Server) : Except Fault Server :=
  let (k, v, registry) :=
    if platform.valueFirst then
      let (v, registry) := toUint64 platform.hash server.registry val
      let (k, registry) := toUint64 platform.hash registry key
      (k, v, registry)
    else
      let (k, registry) := toUint64 platform.hash server.registry key
      let (v, registry) := toUint64 platform.hash registry val
      (k, v, registry)
  do
    let cache ← server.cache.put (hashKey server.cache.hashMask) k v
    return { cache := cache, registry := registry }

/-- `cache->get(to_uint64(key))`. -/
def Server.get (key : String) (server : Server) : Except Fault Server := do
  let (k, registry) := toUint64 platform.hash server.registry key
  let (_, cache) ← server.cache.get (hashKey server.cache.hashMask) k
  return { cache := cache, registry := registry }

/-- `cache->remove(to_uint64(key))`. -/
def Server.remove (key : String) (server : Server) : Except Fault Server := do
  let (k, registry) := toUint64 platform.hash server.registry key
  let (_, cache) ← server.cache.remove (hashKey server.cache.hashMask) k
  return { cache := cache, registry := registry }

/-- `std::make_unique<lru_cache>(cap)`, with the capacity that the request has, or 10. The
allocation is taken to succeed: where there is no memory for the cache, the code ends with an
uncaught `std::bad_alloc`, say at `capacity=2147483647`. -/
def Server.reset (capStr : String) (server : Server) : Except Fault Server := do
  let cap := (stoi capStr).getD 10
  let cap := if cap ≤ 0 then 10 else cap
  let cache ← Cache.new cap.toNat
  return { server with cache := cache }

/-- One operation of a batch. -/
def Server.token (token : String) (server : Server) : Except Fault Server :=
  match find token "," 0 with
  | none => .ok server
  | some c1 =>
      let c2 := find token "," (c1 + 1)
      let key := substr token (c1 + 1) (c2.map (· - c1 - 1))
      match token.toList.head?, c2 with
      | some 'P', some c2 => server.put platform key (substr token (c2 + 1) none)
      | some 'G', _ => server.get platform key
      | some 'R', _ => server.remove platform key
      | _, _ => .ok server

/-- The loop over the operations of a batch. -/
def batchLoop : List String → String → Bool → Server → Except Fault (String × Server)
  | [], jsonArray, _, server => .ok (jsonArray, server)
  | token :: tokens, jsonArray, first, server =>
      if token = "" then batchLoop tokens jsonArray first server
      else do
        let server ← server.token platform token
        let jsonArray := if first then jsonArray else jsonArray ++ ","
        batchLoop tokens (jsonArray ++ server.stateText platform) false server

/-- The content of a file, or what is sent in its place. -/
def fileBody (path missing : String) : String :=
  if platform.readFile path = "" then missing else platform.readFile path

/-- One turn of the loop of `main`, for a request that has arrived. -/
def serve (request : String) (server : Server) : Except Fault (Response × Server) :=
  if beginsWith request "GET / " || beginsWith request "GET /?" then
    .ok (.ok "text/html" (fileBody platform "public/index.html"
      "<h1>public/index.html not found</h1>"), server)
  else if beginsWith request "GET /index.css " || beginsWith request "GET /index.css?" then
    .ok (.ok "text/css" (fileBody platform "public/index.css"
      "/* public/index.css not found */"), server)
  else if beginsWith request "GET /app.js " || beginsWith request "GET /app.js?" then
    .ok (.ok "application/javascript" (fileBody platform "public/app.js"
      "/* public/app.js not found */"), server)
  else if beginsWith request "GET /api/state" then
    .ok (server.jsonResponse platform, server)
  else if beginsWith request "POST /api/put" then do
    let path := requestPath request
    let key := getQueryParam path "key"
    let val := getQueryParam path "value"
    let server ← (if key ≠ "" ∧ val ≠ "" then server.put platform key val else .ok server)
    return (server.jsonResponse platform, server)
  else if beginsWith request "POST /api/get" then do
    let key := getQueryParam (requestPath request) "key"
    let server ← (if key ≠ "" then server.get platform key else .ok server)
    return (server.jsonResponse platform, server)
  else if beginsWith request "POST /api/remove" then do
    let key := getQueryParam (requestPath request) "key"
    let server ← (if key ≠ "" then server.remove platform key else .ok server)
    return (server.jsonResponse platform, server)
  else if beginsWith request "POST /api/reset" then do
    let server ← server.reset (getQueryParam (requestPath request) "capacity")
    return (server.jsonResponse platform, server)
  else if beginsWith request "POST /api/batch" then do
    let ops := getQueryParam (requestPath request) "ops"
    let (jsonArray, server) ← batchLoop platform (getlines ops '|') "[" true server
    return (.ok "application/json" (jsonArray ++ "]"), server)
  else
    .ok (.notFound, server)

end Server

end LruCache
