/-
# `Secdogie.Transport.Endpoint` — where a peer may be reached

Endpoints of one peer, of-kinds in order of preference, and the set of them
that a record carries: one for each address, of the best kind seen there.
-/
import Mathlib

namespace Secdogie.Transport

inductive Kind where
  | pub
  | observed
  | loc
  | candidate
deriving DecidableEq

def Kind.text : Kind → String
  | .pub => "public"
  | .observed => "observed"
  | .loc => "local"
  | .candidate => "candidate"

/-- The lower, the better. -/
def Kind.priority : Kind → Nat
  | .pub => 0
  | .observed => 1
  | .loc => 2
  | .candidate => 3

def Kind.ofText (s : String) : Option Kind :=
  [Kind.pub, .observed, .loc, .candidate].find? (fun k => k.text = s)

/-- An address with a port in range. -/
structure Endpoint where
  kind : Kind
  host : String
  port : Int
  port_ok : 0 < port ∧ port < 65536
deriving DecidableEq

/-- `Endpoint(kind, host, port)`; `none` is its `ValueError`. -/
def Endpoint.make (kind host : String) (port : Int) : Option Endpoint :=
  match Kind.ofText kind with
  | none => none
  | some k => if h : 0 < port ∧ port < 65536 then some ⟨k, host, port, h⟩ else none

def Endpoint.key (e : Endpoint) : String × Int := (e.host, e.port)

/-- Endpoints in the order they were added, one for a key. -/
abbrev EndpointSet := List Endpoint

namespace EndpointSet

def add (es : EndpointSet) (e : Endpoint) : EndpointSet :=
  match es with
  | [] => [e]
  | e' :: rest =>
      if e'.key = e.key then (if e.kind.priority < e'.kind.priority then e :: rest else e' :: rest)
      else e' :: add rest e

/-- By kind, host and port. -/
def before (a b : Endpoint) : Bool :=
  decide (a.kind.priority < b.kind.priority ∨ a.kind.priority = b.kind.priority ∧
    (a.host < b.host ∨ a.host = b.host ∧ a.port ≤ b.port))

def all (es : EndpointSet) : List Endpoint := es.mergeSort before

def best (es : EndpointSet) : Option Endpoint := (all es).head?

end EndpointSet

end Secdogie.Transport
