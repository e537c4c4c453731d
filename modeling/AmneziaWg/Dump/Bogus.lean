import AmneziaWg.Lib.Linux

/-!
# Bogus endpoints

With the module parameter `bogus_endpoints`, a dump shows random addresses of two
configured prefixes instead of the endpoints of the peers. The prefixes are texts that
are parsed anew for every peer.

* **Model**: `parseIpv4Prefix`, `parseIpv6Prefix` and the two generators. The text to
  address conversions are those of the kernel, as parameters; so is what a shift by
  the whole width of a word gives, which C leaves open.
-/

namespace AmneziaWg.Dump

open Linux

/-- `in4_pton` and `in6_pton`: an IPv4 address as a number, an IPv6 address as its bytes. -/
structure Pton where
  in4 : Bytes → Option U32
  in6 : Bytes → Option Bytes

/-- `struct ipv4_prefix` and `struct ipv6_prefix`. -/
structure Prefix (α : Type) where
  addr : α
  prefixLen : ℕ

/-- The text up to the slash is the address, the text after it the length. -/
def parsePrefix {α : Type} (addrStrLen width : ℕ) (pton : Bytes → Option α) :
    Option Bytes → Except Errno (Prefix α)
  | none => .error .EINVAL
  | some text =>
    match text.dropWhile (· ≠ chr '/') with
    | [] => .error .EINVAL
    | _ :: len =>
      let addr := text.takeWhile (· ≠ chr '/')
      if addr.length ≥ addrStrLen then .error .EINVAL
      else do
        let prefixLen ← kstrtoint 10 len
        if prefixLen < 0 ∨ prefixLen > width then .error .EINVAL
        else
          match pton addr with
          | none => .error .EINVAL
          | some addr => .ok ⟨addr, prefixLen.toNat⟩

def parseIpv4Prefix (pton : Pton) : Option Bytes → Except Errno (Prefix U32) :=
  parsePrefix 16 32 pton.in4

def parseIpv6Prefix (pton : Pton) : Option Bytes → Except Errno (Prefix Bytes) :=
  parsePrefix 48 128 pton.in6

/-- `x << n` on 32 bits. -/
structure Shift where
  shl : U32 → ℕ → U32
  shl_lt : ∀ x n, n < 32 → shl x n = x <<< n

/-- The random bytes for one address. -/
structure Draw where
  suffix : U32
  bytes : ℕ → U8
  byte : U8
deriving Inhabited

def generateIpv4AddressWithPrefix (shift : Shift) (draw : Draw) (p : Prefix U32) : U32 :=
  let suffixMask := if p.prefixLen = 32 then 0 else shift.shl 1 (32 - p.prefixLen) - 1
  (p.addr &&& ~~~suffixMask) ||| (draw.suffix &&& suffixMask)

/-- The random bytes overwrite the byte that the prefix ends in. -/
def generateIpv6AddressWithPrefix (draw : Draw) (p : Prefix Bytes) : Bytes :=
  let prefixBytes := p.prefixLen / 8
  let prefixBits := p.prefixLen % 8
  if prefixBytes < 16 then
    let addr := p.addr.take prefixBytes ++ (List.range (16 - prefixBytes)).map draw.bytes
    if prefixBits ≠ 0 then
      let mask : U8 := 0xFF <<< (8 - prefixBits)
      addr.modify prefixBytes fun b => (b &&& mask) ||| (draw.byte &&& ~~~mask)
    else addr
  else p.addr

/-- The module parameters. -/
structure BogusEndpoints where
  bogusEndpoints : ℤ
  bogusEndpointsPrefix : Option Bytes
  bogusEndpointsPrefix6 : Option Bytes

/-- The parameters of a module that is loaded without any. -/
def BogusEndpoints.default : BogusEndpoints :=
  ⟨0, some (ascii "127.0.0.0/8"), some (ascii "ff80::/16")⟩

/-- The two prefixes, if addresses are made up at all. -/
def BogusEndpoints.parse (bogus : BogusEndpoints) (pton : Pton) :
    Except Errno (Option (Prefix U32 × Prefix Bytes)) :=
  if bogus.bogusEndpoints ≠ 0 then do
    let ipv4 ← parseIpv4Prefix pton bogus.bogusEndpointsPrefix
    let ipv6 ← parseIpv6Prefix pton bogus.bogusEndpointsPrefix6
    return some (ipv4, ipv6)
  else .ok none

end AmneziaWg.Dump
