import LinuxBase.Lib.StringFunctions
import LinuxBase.Lib.Trace

/-!
# The HTTP client (`http-connect.c`)

`httpSendRequest` looks the host up, writes a request and collects the response; `saveHttp` writes the
body of the response to a file. A store outside of an array or of a block, and a read behind the end of
a string, are a `fault`.

What the library and the peer do are parameters:

* `gethostbyname`: the list of the addresses, as the texts that `inet_ntop` makes of them, or none for
  `NULL`; the socket of `httpCreateSocket`;
* what `select` and `recv` return in each iteration of the loop;
* the contents of new memory. `malloc` and `realloc` in `httpSendRequest` (lines 107 and 126) succeed for
  positive sizes; for the size 0 `realloc` frees the block and returns `NULL`. The `malloc` of `saveHttp`
  may fail, and never succeeds for a size that is no `ptrdiff_t`.
-/

namespace LinuxBase
namespace HttpConnect

open CString

/-- A string without its NUL. -/
abbrev Str := { s : List Byte // 0#8 ∉ s }

def octets (s : String) : List Byte := s.toList.map fun c => BitVec.ofNat 8 c.toNat

def inetAddrStrLen : Nat := 16

/-- The text that `inet_ntop` stores for an address, with its NUL; nothing if it fails. It is never
longer than the size that `inet_ntop` gets. -/
abbrev IpText := { t : List Byte // t.length ≤ inetAddrStrLen }

/-! ## The request -/

/-- The `for` of `hostnameToIp`, where `i` addresses are stored. -/
def hostnameLoop (ips : List Byte) (i : Nat) : List IpText → Run (Nat × List Byte)
  | [] => .ret (i, ips)
  | t :: ts => do
    let ip := List.replicate inetAddrStrLen 0#8
    let ip ← storeAt ip 0 t.val
    let ips ← storeAt ips (inetAddrStrLen * i) ip
    hostnameLoop ips (i + 1) ts

/-- `hostnameToIp`; `hostEntry` is what `gethostbyname` returned. -/
def hostnameToIp (hostname : Option Str) (hostEntry : Option (List IpText)) (ips : List Byte) :
    Run (Int × List Byte) :=
  match hostname with
  | none => .ret (-1, ips)
  | some _ => do
    let addrList ← .ofOption hostEntry
    let (i, ips) ← hostnameLoop ips 0 addrList
    .ret (i, ips)

/-- What `sprintf` makes of `httpHeader`. -/
def request (path hostname : Str) : List Byte :=
  octets "GET " ++ path.val ++ octets " " ++ octets "HTTP/1.1" ++ octets "\r\n" ++
    octets "HOST:" ++ hostname.val ++ octets "\r\n" ++
    octets "Connection:" ++ octets "close" ++ octets "\r\n" ++ octets "\r\n"

/-- `httpSendRequest` up to its `send`: `ips` and `buffer`, or none where it returns `NULL`. -/
def buildRequest (hostname path : Option Str) (hostEntry : Option (List IpText)) :
    Run (Option (List Byte × List Byte)) :=
  match hostname, path with
  | some h, some p => do
    let ips := List.replicate (5 * inetAddrStrLen) 0#8
    let (len, ips) ← hostnameToIp (some h) hostEntry ips
    if len < 1 then .ret none
    else
      let buffer := List.replicate 1024 0#8
      let buffer ← storeAt buffer 0 (request p h ++ [0#8])
      .ret (some (ips, buffer))
  | _, _ => .ret none

/-! ## The response -/

/-- What `recv` returns: the octets, -1, or 0. -/
inductive Received where
  | chunk (bytes : List Byte)
  | error
  | closed

/-- What the `int length` is. -/
def Received.length : Received → Int
  | .chunk bytes => bytes.length
  | .error => -1
  | .closed => 0

/-- What `recv` stores into `buffer`. -/
def Received.bytes : Received → List Byte
  | .chunk bytes => bytes
  | .error | .closed => []

/-- One iteration: `select` does not report the socket, or there is a `recv`. The memory that `realloc`
adds to the block has the contents `junk`. -/
inductive Iteration where
  | notReady
  | ready (r : Received) (junk : Nat → Byte)

/-- The loop of `httpSendRequest`. `received` is no data of the code: it is what `recv` has returned. -/
structure State where
  result : Option (List Byte) := some (List.replicate 4 0#8)
  left : Bool := false
  received : List Byte := []
  deriving DecidableEq

/-- `realloc(p, n)`. -/
def realloc (p : List Byte) (n : Nat) (junk : Nat → Byte) : Option (List Byte) :=
  if n = 0 then none else some (p.take n ++ (List.range (n - p.length)).map junk)

/-- A signed number as a `size_t`. -/
def sizeT (n : Int) : Nat := (BitVec.ofInt 64 n).toNat

/-- The `realloc` and the `strncat` of an iteration. The size of a block is no `size_t` that
overflows by one more chunk. -/
def append (result : Option (List Byte)) (r : Received) (junk : Nat → Byte) :
    Run (Option (List Byte)) := do
  let block ← .ofOption result
  let len ← strlen block
  match realloc block (len + r.length + 1).toNat junk with
  | none => .ret none
  | some block =>
    let buffer := r.bytes ++ List.replicate (1024 - r.bytes.length) 0#8
    let block ← strncat block buffer (sizeT r.length)
    .ret (some block)

def iterate (it : Iteration) (s : State) : Run State :=
  if s.left then .ret s
  else
    match it with
    | .notReady | .ready .closed _ => .ret { s with left := true }
    | .ready r junk => do
      let result ← append s.result r junk
      .ret { s with result, received := s.received ++ r.bytes }

/-- `httpSendRequest`; `FD_SET` stores into an array of 1024 bits. -/
def httpSendRequest (hostname path : Option Str) (hostEntry : Option (List IpText)) (socketFd : Int)
    (its : List Iteration) : Run (Option (List Byte)) := do
  match ← buildRequest hostname path hostEntry with
  | none => .ret none
  | some _ =>
    if socketFd < 0 ∨ 1024 ≤ socketFd then .fault
    else
      let s ← exec iterate its {}
      if s.left then .ret s.result else .more

/-! ## The body -/

/-- The place of the first occurrence of `needle` in a string. -/
def find (needle : List Byte) : List Byte → Option Nat
  | [] => none
  | b :: bs => if needle.isPrefixOf (b :: bs) then some 0 else (find needle bs).map (· + 1)

/-- The response that `saveHttp` gets: a string in a block at the address `base`. No block is in the
first page of addresses, or beyond those of a process. -/
structure Response where
  base : Nat
  block : List Byte
  ends : Ends block
  mapped : 4096 ≤ base ∧ base + block.length ≤ 4611686018427387904

/-- What can be read from the address `p` on. -/
def Response.readable (r : Response) (p : Int) : List Byte :=
  if r.base ≤ p then r.block.drop (p - r.base).toNat else []

/-- `malloc(n)` with the contents `junk`, if it does not fail. -/
def malloc (fails : Bool) (junk : Nat → Byte) (n : Nat) : Option (List Byte) :=
  if fails ∨ 9223372036854775808 ≤ n then none else some ((List.range n).map junk)

/-- `fputs`: what goes to the file. -/
def fputs (string : List Byte) : Run (List Byte) :=
  if Ends string then .ret (text string) else .fault

/-- `saveHttp`: the contents of the file. `opens` says whether `fopen` succeeds. A `NULL` of `strstr` is
the address 0. -/
def saveHttp (r : Response) (fails : Bool) (junk : Nat → Byte) (opens : Bool) : Run (List Byte) := do
  let p : Int :=
    match find (octets "\r\n\r\n") (text r.block) with
    | some i => r.base + i
    | none => 0
  let p := p + 4
  let strLen ← strlen r.block
  let len : Int := (BitVec.ofNat 32 strLen).toInt
  let n := sizeT (len - (p - r.base))
  let string ← .ofOption (malloc fails junk n)
  let string ← strncpy string (r.readable p) n
  if opens then fputs string else .fault

/-! ## Sizes -/

theorem sizeT_natCast {n : Nat} (h : n < 18446744073709551616) : sizeT n = n := by
  rw [sizeT, BitVec.ofInt_natCast, BitVec.toNat_ofNat, Nat.mod_eq_of_lt h]

/-- A size that `malloc` has is the number itself. -/
theorem sizeT_of_lt {m : Int} (h : sizeT m < 9223372036854775808) (hlow : -9223372036854775808 ≤ m)
    (hhigh : m < 9223372036854775808) : (sizeT m : Int) = m := by
  rw [sizeT, BitVec.toNat_ofInt] at h ⊢
  omega

end HttpConnect
end LinuxBase
