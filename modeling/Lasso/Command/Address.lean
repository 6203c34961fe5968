/-!
# Addresses to listen on

An address is a host and a port with a colon between them. A host that has colons of its own stands
in brackets.

Main definition: `Address.problem?` says why a program cannot listen on an address.
-/

namespace Lasso.Address

/-- The host and the port of an address, or what is wrong with it. -/
def split (address : List Char) : Except String (List Char × List Char) := do
  let back := address.reverse
  let port := (back.takeWhile (· ≠ ':')).reverse
  if !address.contains ':' then throw "missing port in address"
  let front := address.take (address.length - port.length - 1)
  let (host, opened, closed) ← (match address with
    | '[' :: inner => do
      let host := inner.takeWhile (· ≠ ']')
      let behind := inner.drop (host.length + 1)
      if !inner.contains ']' then throw "missing ']' in address"
      if behind.isEmpty then throw "missing port in address"
      if front.length ≠ host.length + 2 then
        throw (if behind.head? = some ':' then "too many colons in address"
          else "missing port in address")
      return (host, inner, behind)
    | _ => do
      if front.contains ':' then throw "too many colons in address"
      return (front, address, address)
      : Except String (List Char × List Char × List Char))
  if opened.contains '[' then throw "unexpected '[' in address"
  if closed.contains ']' then throw "unexpected ']' in address"
  return (host, port)

/-- The number of a port. A name is none. -/
def portNumber? (port : List Char) : Option Int :=
  let (negative, ds) := match port with
    | '+' :: ds => (false, ds)
    | '-' :: ds => (true, ds)
    | ds => (false, ds)
  if ds.all Char.isDigit then
    let n := ds.foldl (fun n d => n * 10 + (d.toNat - '0'.toNat)) 0
    some (if negative then -n else n)
  else none

/-- Why a program cannot listen on an address. -/
def problem? (address : String) : Option String :=
  if address.isEmpty then none
  else
    match split address.toList with
    | .error why => some ("listen tcp: address " ++ address ++ ": " ++ why)
    | .ok (_, port) =>
      match portNumber? port with
      | some n =>
        if 0 ≤ n && n ≤ 65535 then none
        else some ("listen tcp: address " ++ String.ofList port ++ ": invalid port")
      | none => some ("listen tcp: lookup tcp/" ++ String.ofList port ++ ": unknown port")

end Lasso.Address
