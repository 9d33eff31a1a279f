import MinervaBot.Commands
import MinervaBot.Http

/-!
# `bot_cryptocurrency`

The handler converts the three letters of its command word to upper case before it compares them,
so it makes the same calls for every spelling of a word (`cryptoHandleCmd_congr`). The JSON parser
and the arithmetic and the texts of `double` are not part of the program: `CryptoEnv` has them as
arbitrary functions.
-/

namespace MinervaBot

open Lib

/-- `jsmntok_t`, as far as the module reads it. -/
structure JsmnTok where
  isObject : Bool
  start : Int
  stop : Int

/-- What the handler uses from outside: what curl does with a URL, `jsmn_parse` (its return value
and the elements of `t` that it sets), `atof`, the product of two numbers, and the texts that
`printf` writes for `%lf` and `%.2lf`. -/
structure CryptoEnv where
  server : CString → CurlReply
  jsmnParse : List (Option UInt8) → Nat → Int × (Fin 128 → Option JsmnTok)
  Double : Type
  one : Double
  atof : CString → Double
  mul : Double → Double → Double
  lf : Double → CString
  lf2 : Double → CString

/-- The conversion to upper case of one `char`, which is signed. -/
def cryptoUpper (c : UInt8) : UInt8 :=
  if 90 < c ∧ c < 128 then c - 32 else c

/-- `sym`. The module registers words of three letters; what follows a shorter word is undefined
here. -/
def cryptoSym (cmdname : CString) : Option CString :=
  match cmdname.bytes.map cryptoUpper with
  | a :: b :: c :: _ => some (CString.ofBytes [a, b, c])
  | _ => none

/-- `url`; `none` where it is left without a value. -/
def cryptoUrl (sym : CString) : Option CString :=
  if sym = CString.lit "BTC" then
    some (CString.lit "https://min-api.cryptocompare.com/data/price?fsym=BTC&tsyms=BTC,ETH,XMR,USD,CAD")
  else if sym = CString.lit "ETH" then
    some (CString.lit "https://min-api.cryptocompare.com/data/price?fsym=ETH&tsyms=BTC,ETH,XMR,USD,CAD")
  else if sym = CString.lit "XMR" then
    some (CString.lit "https://min-api.cryptocompare.com/data/price?fsym=XMR&tsyms=BTC,ETH,XMR,USD,CAD")
  else if sym = CString.lit "USD" then
    some (CString.lit "https://min-api.cryptocompare.com/data/price?fsym=USD&tsyms=BTC,ETH,XMR,USD,CAD")
  else if sym = CString.lit "CAD" then
    some (CString.lit "https://min-api.cryptocompare.com/data/price?fsym=CAD&tsyms=BTC,ETH,XMR,USD,CAD")
  else none

/-- `strndup(memory + start, stop - start)`, its allocation succeeding; the length is a `size_t`. -/
def strndup (cells : List (Option UInt8)) (start stop : Int) : Option CString :=
  if 0 ≤ start then
    (readStr ((stop - start) % 2 ^ 64).toNat (cells.drop start.toNat)).map CString.ofBytes
  else none

/-- The number at token `i`. -/
def priceAt (env : CryptoEnv) (cells : List (Option UInt8)) (t : Fin 128 → Option JsmnTok)
    (i : Fin 128) : Exec (List WebCall) env.Double :=
  Exec.ofOption ((t i).bind fun tok => (strndup cells tok.start tok.stop).map env.atof)

/-- `handle_cmd` of `bot_cryptocurrency`, from the parsed response on. -/
def cryptoReport (env : CryptoEnv) (sym where' args : CString) (cells : List (Option UInt8))
    (t : Fin 128 → Option JsmnTok) : Exec (List WebCall) Int := do
  let btcPrice ← priceAt env cells t 2
  let ethPrice ← priceAt env cells t 4
  let xmrPrice ← priceAt env cells t 6
  let usdPrice ← priceAt env cells t 8
  let cadPrice ← priceAt env cells t 10
  let requestAmnt := if args.length > 1 then env.atof args else env.one
  webCall (.msgva where' (env.lf requestAmnt ++ CString.lit " " ++ sym ++ CString.lit " = " ++
    env.lf (env.mul requestAmnt btcPrice) ++ CString.lit " BTC / " ++
    env.lf (env.mul requestAmnt ethPrice) ++ CString.lit " ETH / " ++
    env.lf (env.mul requestAmnt xmrPrice) ++ CString.lit " XMR / " ++
    env.lf2 (env.mul requestAmnt usdPrice) ++ CString.lit " USD / " ++
    env.lf2 (env.mul requestAmnt cadPrice) ++ CString.lit " CAD"))
  return 0

/-- `handle_cmd` of `bot_cryptocurrency`, from the conversion of the word on. -/
def cryptoQuery (env : CryptoEnv) (sym where' args : CString) : Exec (List WebCall) Int := do
  let url ← Exec.ofOption (cryptoUrl sym)
  match ← sendHttpRequest env.server url with
  | none =>
    webCall (.msg where' (CString.lit "Error fetching price information."))
    return 0
  | some chunk =>
    let cells := chunk.memory.getD []
    let parsed := env.jsmnParse cells chunk.size
    if parsed.1 < 0 then
      return 1
    if parsed.1 < 1 then
      return 1
    let first ← Exec.ofOption (parsed.2 0)
    if first.isObject then cryptoReport env sym where' args cells parsed.2
    else return 1

/-- `handle_cmd` of `bot_cryptocurrency`. -/
def cryptoHandleCmd (env : CryptoEnv) : WebHandler := fun cmdname _ where' args => do
  let sym ← Exec.ofOption (cryptoSym cmdname)
  cryptoQuery env sym where' args

/-! ## Spellings -/

/-- The upper case letter of a child index. -/
theorem cryptoUpper_eq {c : UInt8} {i : Fin 26} (h : childIndex c = some i) :
    cryptoUpper c = 65 + .ofNat i := by
  have hbytes : ∀ c, ∀ i ∈ childIndex c, cryptoUpper c = 65 + .ofNat i :=
    forall_byte (by decide +kernel)
  exact hbytes c i h

/-- The conversion depends on the lower case form only. -/
theorem map_cryptoUpper_eq {text : List UInt8} : ∀ {w : Word}, lowercase text = some w →
    text.map cryptoUpper = w.map fun i => 65 + .ofNat i := by
  induction text with
  | nil =>
    intro w h
    rw [lowercase_nil] at h
    cases h
    rfl
  | cons c text ih =>
    intro w h
    rw [lowercase_cons] at h
    obtain ⟨i, hi, hw⟩ := Option.bind_eq_some_iff.1 h
    obtain ⟨w', hw', rfl⟩ := Option.map_eq_some_iff.1 hw
    rw [List.map_cons, cryptoUpper_eq hi, ih hw', List.map_cons]

/-- Two spellings of a word run alike. -/
theorem cryptoHandleCmd_congr {cmdname cmdname' : CString} {w : Word}
    (h : lowercase cmdname.bytes = some w) (h' : lowercase cmdname'.bytes = some w)
    (env : CryptoEnv) : cryptoHandleCmd env cmdname = cryptoHandleCmd env cmdname' := by
  have hsym : cryptoSym cmdname = cryptoSym cmdname' := by
    rw [cryptoSym, cryptoSym, map_cryptoUpper_eq h, map_cryptoUpper_eq h']
  unfold cryptoHandleCmd
  rw [hsym]

end MinervaBot
