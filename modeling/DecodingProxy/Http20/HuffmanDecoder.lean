import DecodingProxy.Http20.HuffmanCoding
import DecodingProxy.Lib.Runs
import DecodingProxy.Runtime.Faults

/-!
# `HuffmanDecoder`

The words are cut into bytes and put into a tree with 256 branches, where a word that ends inside
a byte stands under all bytes that begin with its end. Decoding goes down one byte at a time, so a
step takes what comes behind a word into view and gives back what the word did not need.
-/

namespace DecodingProxy.Http20
open DecodingProxy.Bits DecodingProxy.PrefixCodes DecodingProxy.Runs DecodingProxy.Runtime
open HuffmanCoding

/-- `IOException` and `InvalidDataException`, and how any other call fails to return. -/
inductive DecoderFault
  | io (message : String)
  | invalidData (message : String)
  | halt (halt : Halt)
  deriving DecidableEq, Repr

/-- A terminal node has a symbol, and the number of bits it matches. Any other matches a byte. -/
inductive Node
  | terminal (symbol bits : ℕ)
  | internal (children : UInt8 → Option Node)

namespace Node

def new : Node := .internal fun _ => none

def bits : Node → ℕ
  | .terminal _ bits => bits
  | .internal _ => 8

/-- `Children[c]`, which is taken from a terminal node as well. -/
def child : Node → UInt8 → Except DecoderFault Node
  | .terminal _ _, _ => .error (.halt (.threw (.raised .nullReference)))
  | .internal children, c =>
    match children c with
    | none => .error (.halt (.threw (.raised .nullReference)))
    | some node => .ok node

end Node

namespace HuffmanDecoder

/-- `Insert`, which goes on with the rest of the code below the child of its first byte. -/
def insert (current : Node) (symbol code length : ℕ) : Except DecoderFault Node :=
  if 8 < length then
    match current with
    | .terminal _ _ => .error (.invalidData "invalid Huffman code: prefix not unique")
    | .internal children => do
      let length := length - 8
      let i := UInt8.ofNat (code >>> length)
      let child ← insert ((children i).getD .new) symbol code length
      .ok (.internal fun j => if j = i then some child else children j)
  else
    match current with
    | .terminal _ _ => .error (.halt (.threw (.raised .nullReference)))
    | .internal children =>
      let terminal := Node.terminal symbol length
      let shift := 8 - length
      let start := UInt8.ofNat (code <<< shift)
      let finish := 1 <<< shift
      .ok (.internal fun j =>
        if start.toNat ≤ j.toNat ∧ j.toNat < start.toNat + finish then some terminal
        else children j)
termination_by length
decreasing_by omega

def buildTree (words : List (ℕ × ℕ)) : Except DecoderFault Node :=
  words.zipIdx.foldlM (fun node ((code, length), i) => insert node i code length) Node.new

/-- The constructor, which gives the root. -/
def new (codes lengths : List ℕ) : Except DecoderFault Node :=
  if codes.length ≠ 257 ∨ codes.length ≠ lengths.length then
    .error (.halt (.threw (.thrown .argument "invalid Huffman coding")))
  else buildTree (codes.zip lengths)

structure Progress where
  node : Node
  current : BitVec 32
  bits : ℕ
  baos : List UInt8

/-- The inner loop, where a whole byte of the bits is left. A node takes at least one bit off, so
as many rounds as there are bits are enough. -/
def drain (root : Node) : ℕ → Progress → Except DecoderFault Progress
  | rounds, p =>
    if p.bits < 8 then .ok p
    else
      match rounds with
      | 0 => .error (.halt .diverges)
      | rounds + 1 => do
        let c := UInt8.ofBitVec ((p.current.sshiftRight (p.bits - 8)).setWidth 8)
        let node ← p.node.child c
        let bits := p.bits - node.bits
        match node with
        | .terminal symbol _ =>
          if symbol = HUFFMAN_EOS then .error (.io "EOS Decoded")
          else
            drain root rounds
              { p with node := root, bits, baos := p.baos ++ [UInt8.ofNat symbol] }
        | .internal _ => drain root rounds { p with node, bits }

def feed (root : Node) (p : Progress) (b : UInt8) : Except DecoderFault Progress :=
  let bits := p.bits + 8
  drain root bits { p with current := p.current <<< 8 ||| b.toBitVec.setWidth 32, bits }

/-- The loop over the bits that are less than a byte. -/
def finish (root : Node) : ℕ → Progress → Except DecoderFault Progress
  | rounds, p =>
    if p.bits = 0 then .ok p
    else
      match rounds with
      | 0 => .error (.halt .diverges)
      | rounds + 1 => do
        let c := UInt8.ofBitVec ((p.current <<< (8 - p.bits)).setWidth 8)
        let node ← p.node.child c
        match node with
        | .terminal symbol bits =>
          if bits ≤ p.bits then
            finish root rounds
              { p with
                node := root, bits := p.bits - bits, baos := p.baos ++ [UInt8.ofNat symbol] }
          else .ok { p with node }
        | .internal _ => .ok { p with node }

def decodeFrom (root : Node) (buf : List UInt8) : Except DecoderFault (List UInt8) := do
  let p ← buf.foldlM (feed root) { node := root, current := 0, bits := 0, baos := [] }
  let p ← finish root p.bits p
  let mask := 1#32 <<< p.bits - 1#32
  if p.current &&& mask ≠ mask then .error (.io "Invalid Padding")
  else .ok p.baos

end HuffmanDecoder

/-- `HuffmanCoding.decoder.Decode(buf)`. -/
def HuffmanCoding.decode (buf : List UInt8) : Except DecoderFault (List UInt8) := do
  let root ← HuffmanDecoder.new HUFFMAN_CODES HUFFMAN_CODE_LENGTHS
  HuffmanDecoder.decodeFrom root buf

end DecodingProxy.Http20
