/-!
# Mnemonics

The names of the instructions. Letters in front tell the kind an instruction works on: none for
single precision, `d` for double precision, `i` and `u` for signed and unsigned integers.
-/

namespace ShaderIL

/-- The instruction an instruction line performs. -/
inductive Mnemonic where
  | mov
  | add | dadd | iadd
  | sub
  | mul | dmul | imul | umul
  | div | ddiv | idiv | udiv
  | imod | umod
  | min | dmin | imin | umin
  | max | dmax | imax | umax
  | mad | dmad | imad | umad
  | cmov
  | inegate
  | iand | ior | ixor | inot
  | ishl | ishr | ushr
  | eq | deq | ieq
  | ne | dne | ine
  | lt | dlt | ilt | ult
  | ge | dge | ige | uge
  | abs
  | sqrt
  | rsqrt
  | floor
  | ceil
  | fract
  | dot2
  | dot4
  | bitAlign
  | byteAlign
  | bitInsert
  | ubitExtract
  | ibitExtract
  | itof | utof | ftoi | ftou
  | d2f | f2d | itod | utod | dtoi | dtou
  | sample (slot : Int)
  /-- The conversion between two kinds that have none. -/
  | blank
  deriving DecidableEq, Repr

/-- The text of a mnemonic. -/
def Mnemonic.text : Mnemonic → String
  | mov => "mov"
  | add => "add"
  | dadd => "dadd"
  | iadd => "iadd"
  | sub => "sub"
  | mul => "mul"
  | dmul => "dmul"
  | imul => "imul"
  | umul => "umul"
  | div => "div_zeroop(infinity)"
  | ddiv => "ddiv"
  | idiv => "idiv"
  | udiv => "udiv"
  | imod => "imod"
  | umod => "umod"
  | min => "min"
  | dmin => "dmin"
  | imin => "imin"
  | umin => "umin"
  | max => "max"
  | dmax => "dmax"
  | imax => "imax"
  | umax => "umax"
  | mad => "mad"
  | dmad => "dmad"
  | imad => "imad"
  | umad => "umad"
  | cmov => "cmov_logical"
  | inegate => "inegate"
  | iand => "iand"
  | ior => "ior"
  | ixor => "ixor"
  | inot => "inot"
  | ishl => "ishl"
  | ishr => "ishr"
  | ushr => "ushr"
  | eq => "eq"
  | deq => "deq"
  | ieq => "ieq"
  | ne => "ne"
  | dne => "dne"
  | ine => "ine"
  | lt => "lt"
  | dlt => "dlt"
  | ilt => "ilt"
  | ult => "ult"
  | ge => "ge"
  | dge => "dge"
  | ige => "ige"
  | uge => "uge"
  | abs => "abs"
  | sqrt => "sqrt_vec"
  | rsqrt => "rsq_vec"
  | floor => "round_neginf"
  | ceil => "round_plusinf"
  | fract => "frc"
  | dot2 => "dp2_ieee"
  | dot4 => "dp4_ieee"
  | bitAlign => "bitalign"
  | byteAlign => "bytealign"
  | bitInsert => "bfi"
  | ubitExtract => "ubit_extract"
  | ibitExtract => "ibit_extract"
  | itof => "itof"
  | utof => "utof"
  | ftoi => "ftoi"
  | ftou => "ftou"
  | d2f => "d2f"
  | f2d => "f2d"
  | itod => "itod"
  | utod => "utod"
  | dtoi => "dtoi"
  | dtou => "dtou"
  | sample slot =>
    "sample_resource(" ++ toString slot ++ ")_sampler(" ++ toString slot ++ ")"
  | blank => ""

end ShaderIL
