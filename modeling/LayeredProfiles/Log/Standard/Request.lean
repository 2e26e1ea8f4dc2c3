/-
Requests among the fields of a log call.

Fields with a method, headers and a socket, none of them void, describe a request. A line then shows one field for the
request in the place of all of them, whatever else they hold (`Request.ofFields?`). The record of the call is not concerned.
-/
import LayeredProfiles.Log.Event
import LayeredProfiles.Json.Display

namespace LayeredProfiles

namespace Request

def object (fields : LogFields) : Json :=
  .ofMembers (fields.entries.filterMap fun e => match e.2 with
    | .json v => some (e.1, v)
    | .thrown _ => none)

def isRequest (v : Json) : Bool :=
  (v.filled? "method").isSome && (v.filled? "headers").isSome && (v.filled? "socket").isSome

/-- the address of a request: `originalUrl` comes first, then a path that is a text, then `url`, which may be an object with a
path -/
def url? (v : Json) : Option Json :=
  match v.filled? "originalUrl", v.member? "path" with
  | some url, _ => some url
  | none, some (.str path) => some (.str path)
  | none, _ => (v.filled? "url").map fun url => (url.filled? "path").getD url

/-- the number or name by which a request is known -/
def id? (v : Json) : Option Json :=
  match v.filled? "id" with
  | some id => some id
  | none => (v.filled? "info").bind (·.member? "id")

/-- what is known of the other end: the info of a request, where it has one, stands for its socket -/
def connection (v : Json) : Json :=
  match v.filled? "info" with
  | some info => info
  | none => (v.member? "socket").getD .null

/-- a request as a line shows it -/
def shown (v : Json) : Json :=
  .ofMembers <|
    [("id", id? v), ("method", v.member? "method"), ("url", url? v), ("query", v.filled? "query"),
      ("params", v.filled? "params"), ("headers", v.member? "headers"),
      ("remoteAddress", (connection v).member? "remoteAddress"),
      ("remotePort", (connection v).member? "remotePort")].filterMap fun e => e.2.map fun m => (e.1, m)

/-- the request that fields describe, as a line shows it -/
def ofFields? (fields : LogFields) : Option Json :=
  let v := object fields
  if isRequest v then some (shown v) else none

end Request

end LayeredProfiles
