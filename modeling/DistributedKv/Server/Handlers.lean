import DistributedKv.Raft.Node

/-!
The HTTP write handlers (`internal/server/server.go`) with the part of `net/url`
that they use. A handler answers at once, or it hands a command to
`ProposeSet` or `ProposeDelete` and answers when that returns.
-/

namespace DistributedKv

/-! ## Query strings -/

namespace URL

def unhex (c : UInt8) : Option UInt8 :=
  if 48 ≤ c ∧ c ≤ 57 then some (c - 48)
  else if 97 ≤ c ∧ c ≤ 102 then some (c - 97 + 10)
  else if 65 ≤ c ∧ c ≤ 70 then some (c - 65 + 10)
  else none

/-- `url.QueryUnescape`: a percent sign needs two hexadecimal digits, and a plus
sign is a blank. -/
def queryUnescape : Bytes → Option Bytes
  | [] => some []
  | 37 :: a :: b :: rest =>
      match unhex a, unhex b with
      | some high, some low => (queryUnescape rest).map ((16 * high + low) :: ·)
      | _, _ => none
  | 37 :: _ => none
  | 43 :: rest => (queryUnescape rest).map (32 :: ·)
  | c :: rest => (queryUnescape rest).map (c :: ·)

/-- `strings.Cut` -/
def cut (sep : UInt8) (b : Bytes) : Bytes × Bytes :=
  (b.takeWhile (· ≠ sep), (b.dropWhile (· ≠ sep)).drop 1)

/-- One setting of a query string; `none` where `url.ParseQuery` skips it. -/
def parseSetting (setting : Bytes) : Option (Bytes × Bytes) :=
  if 59 ∈ setting ∨ setting = [] then none
  else
    match queryUnescape (cut 61 setting).1, queryUnescape (cut 61 setting).2 with
    | some key, some value => some (key, value)
    | _, _ => none

/-- A query of more parameters is refused as a whole. -/
def maxParams : Nat := 10000

def parseQuery (query : Bytes) : List (Bytes × Bytes) :=
  if query.count 38 + 1 > maxParams then []
  else (query.splitOn 38).filterMap parseSetting

/-- `r.URL.Query().Get(key)` -/
def queryGet (rawQuery key : Bytes) : Bytes := ((parseQuery rawQuery).lookup key).getD []

end URL

/-! ## Requests and responses -/

/-- What the write handlers read of a request. -/
structure HTTPRequest where
  method : String
  path : String
  rawQuery : Bytes
  body : Bytes
  deriving DecidableEq, Repr

/-- Host, path and query that a client is sent to. -/
structure Redirect where
  host : String
  path : String
  rawQuery : Bytes
  deriving DecidableEq, Repr

structure HTTPResponse where
  status : Nat
  body : String
  retryAfter : Option String
  location : Option Redirect
  deriving DecidableEq, Repr

/-- `http.Error` -/
def HTTPResponse.error (text : String) (status : Nat) : HTTPResponse := ⟨status, text, none, none⟩

/-- What `WriteCoordinator` says at one moment. -/
structure Coordinator where
  isLeader : Bool
  leaderHTTPAddr : Option String
  deriving DecidableEq, Repr

/-- How a proposal can end badly. -/
inductive WriteError where
  | deadlineExceeded
  | canceled
  | other (text : String)
  deriving DecidableEq, Repr

structure SetRequest where
  key : Bytes
  value : Bytes
  deriving DecidableEq, Repr

/-- A handler answers, or it proposes a command; then it answers by what the
coordinator says at the end and by how the proposal went. -/
inductive Handling where
  | respond (response : HTTPResponse)
  | propose (command : Command) (finish : Coordinator → Except WriteError Unit → HTTPResponse)

/-! ## Handlers -/

def redirectToLeader (writes : Coordinator) (r : HTTPRequest) : HTTPResponse :=
  match writes.leaderHTTPAddr with
  | none => { HTTPResponse.error "no Raft leader is known" 503 with retryAfter := some "1" }
  | some address => ⟨307, "", none, some ⟨address, r.path, r.rawQuery⟩⟩

/-- The answer of a node that does not take writes; `none` lets the request pass. -/
def requireLeaderForWrite (writes : Option Coordinator) (r : HTTPRequest) : Option HTTPResponse :=
  match writes with
  | none => some (.error "cluster writes are not configured" 503)
  | some writes => if writes.isLeader = true then none else some (redirectToLeader writes r)

def WriteError.text : WriteError → String
  | .deadlineExceeded => "context deadline exceeded"
  | .canceled => "context canceled"
  | .other text => text

def writeFailure (writes : Coordinator) (r : HTTPRequest) (err : WriteError) : HTTPResponse :=
  if writes.isLeader = false then redirectToLeader writes r
  else if err = .deadlineExceeded ∨ err = .canceled then
    { HTTPResponse.error "write was not confirmed by a Raft majority; retry" 503 with
      retryAfter := some "1" }
  else .error s!"write was not confirmed: {err.text}" 503

/-- The end of both handlers, with the status of a success. -/
def answerWrite (status : Nat) (r : HTTPRequest) (writes : Coordinator)
    (result : Except WriteError Unit) : HTTPResponse :=
  match result with
  | .error err => writeFailure writes r err
  | .ok () => ⟨status, "", none, none⟩

/-- The command of `Node.ProposeSet` -/
def proposeSet (key value : Bytes) : Command := ⟨.set, key, value⟩

/-- The command of `Node.ProposeDelete` -/
def proposeDelete (key : Bytes) : Command := ⟨.delete, key, []⟩

/-- `decode` is `encoding/json` on the body. -/
def setHandler (decode : Bytes → Except String SetRequest) (maxValueLength : Int)
    (writes : Option Coordinator) (r : HTTPRequest) : Handling :=
  if r.method ≠ "POST" then .respond (.error "method not allowed" 405)
  else
    match requireLeaderForWrite writes r with
    | some response => .respond response
    | none =>
        match decode r.body with
        | .error _ => .respond (.error "invalid JSON body" 400)
        | .ok req =>
            if req.key = [] then .respond (.error "key cannot be empty" 400)
            else if (req.value.length : Int) > maxValueLength then
              .respond (.error s!"value cannot be greater than {maxValueLength}" 400)
            else .propose (proposeSet req.key req.value) (answerWrite 200 r)

def deleteHandler (writes : Option Coordinator) (r : HTTPRequest) : Handling :=
  if r.method ≠ "DELETE" then .respond (.error "method not allowed" 405)
  else
    match requireLeaderForWrite writes r with
    | some response => .respond response
    | none =>
        -- the bytes of the parameter's name, "key"
        let key := URL.queryGet r.rawQuery [107, 101, 121]
        if key = [] then .respond (.error "missing query parameter: key" 400)
        else .propose (proposeDelete key) (answerWrite 204 r)

/-- The body of a read with status 200, or the error; `get` is `Store.Get`. -/
def getHandler (get : Bytes → Except String Bytes) (r : HTTPRequest) : Except HTTPResponse Bytes :=
  if r.method ≠ "GET" then .error (.error "method not allowed" 405)
  else
    let key := URL.queryGet r.rawQuery [107, 101, 121]
    if key = [] then .error (.error "missing query parameter: key" 400)
    else
      match get key with
      | .error err => .error (.error err 404)
      | .ok value => .ok value

end DistributedKv
