import ForwardProxy.Http.Request
import ForwardProxy.Lib.FirstMatch

/-!
# Routing and access control

`split_authority`, `RouteTable`, and `AccessControl` of `http.hpp`: which upstream a host goes to,
and whether a request is allowed.
-/

namespace ForwardProxy

/-- A leading `*.`, a trailing `*`, or a bare `*`; any other pattern is a literal. -/
def wildcardMatch (pattern value : Bytes) : Bool :=
  if pattern = [STAR] then true
  else if 2 < pattern.length ∧ pattern.take 2 = str "*." then
    (pattern.drop 1).isSuffixOf value
  else if pattern.getLast? = some STAR then pattern.dropLast.isPrefixOf value
  else pattern = value

/-! ## Host-header routing -/

/-- Where a request is sent. -/
structure Upstream where
  host : Bytes
  port : ℤ := 80
  deriving DecidableEq

/-- Splits "example.com:8080" into host and port. Without a colon, or with anything but digits after
the last one, the whole authority is the host. -/
def splitAuthority (authority : Bytes) : Upstream :=
  match rfind authority COLON with
  | none => { host := authority }
  | some colon =>
    let digits := authority.drop (colon + 1)
    if colon + 1 < authority.length ∧ digits.all isDigit then
      let p := atoi digits
      if 0 < p ∧ p < 65536 then { host := authority.take colon, port := p }
      else { host := authority.take colon }
    else { host := authority }

/-- `RouteTable`: patterns of hosts, and where these go. -/
structure RouteTable where
  routes : List (Bytes × Upstream) := []

/-- `RouteTable::add`. -/
def RouteTable.add (t : RouteTable) (hostPattern : Bytes) (up : Upstream) : RouteTable :=
  { routes := t.routes ++ [(toLower hostPattern, up)] }

/-- `RouteTable::resolve`: the first route whose pattern matches, or the host itself. -/
def RouteTable.resolve (t : RouteTable) (hostHeader : Bytes) : Upstream :=
  let h := toLower hostHeader
  match t.routes.find? fun route => wildcardMatch route.1 h with
  | some route => route.2
  | none => splitAuthority hostHeader

/-! ## Access control -/

/-- What the access control says. -/
inductive Decision
  | allow
  | deny
  deriving DecidableEq, Repr

/-- What `check` returns. -/
structure AclResult where
  decision : Decision := .allow
  matchedRule : Bytes := []
  deriving DecidableEq

/-- A rule of the access control, with the text that is logged for it. -/
structure Rule where
  decision : Decision
  field : Bytes
  pattern : Bytes
  source : Bytes
  deriving DecidableEq

/-- `AccessControl`. -/
structure AccessControl where
  rules : List Rule := []
  defaultPolicy : Decision := .allow
  routes : RouteTable := {}

/-- `add_rule`. -/
def AccessControl.addRule (acl : AccessControl) (d : Decision) (field pattern : Bytes)
    (source : Bytes := []) : AccessControl :=
  { acl with
    rules := acl.rules ++ [{
      decision := d
      field := toLower field
      pattern := pattern
      source := if source = [] then field ++ str " " ++ pattern else source }] }

/-- `add_route`. -/
def AccessControl.addRoute (acl : AccessControl) (hostPattern upHost : Bytes) (upPort : ℤ) :
    AccessControl :=
  { acl with routes := acl.routes.add hostPattern { host := upHost, port := upPort } }

/-- Whether a rule matches a request. Host and method are compared without regard to case. -/
def Rule.applies (r : Rule) (req : Request) : Bool :=
  if r.field = str "host" then wildcardMatch (toLower r.pattern) (toLower req.host)
  else if r.field = str "path" then wildcardMatch r.pattern req.path
  else if r.field = str "method" then wildcardMatch (toLower r.pattern) (toLower req.method)
  else false

/-- The loop of `check` over the rules: the first that matches decides. -/
def checkRules (defaultPolicy : Decision) (req : Request) : List Rule → AclResult
  | [] => ⟨defaultPolicy, str "default"⟩
  | r :: rules =>
    if r.applies req then ⟨r.decision, r.source⟩ else checkRules defaultPolicy req rules

/-- `check`. -/
def AccessControl.check (acl : AccessControl) (req : Request) : AclResult :=
  checkRules acl.defaultPolicy req acl.rules

/-- `check` is the first match of its rules. -/
theorem decision_check (acl : AccessControl) (req : Request) :
    (acl.check req).decision =
      Lib.FirstMatch.firstMatch Rule.decision acl.defaultPolicy (fun r => r.applies req)
        acl.rules := by
  unfold AccessControl.check
  induction acl.rules with
  | nil => rfl
  | cons r rules ih =>
    rw [checkRules, Lib.FirstMatch.firstMatch_cons, ← ih]
    split <;> rfl

end ForwardProxy
