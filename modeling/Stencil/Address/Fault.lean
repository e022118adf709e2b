namespace Stencil

/-! Why an address computation has no result. -/

inductive AddressFault where
  | noAddress (text : String)
  | noNetwork (text : String)
  | prefixLength (text : String)
  | range (text : String)
  | offset (text : String) (delta : Int)
  | families
  | overflow
deriving DecidableEq, Repr

def AddressFault.message : AddressFault → String
  | .noAddress text => "'" ++ text ++ "' is no IP address"
  | .noNetwork text => "'" ++ text ++ "' is no CIDR"
  | .prefixLength text => "invalid prefix length in CIDR '" ++ text ++ "'"
  | .range text => "invalid IP range '" ++ text ++ "'"
  | .offset text delta =>
      "IP address " ++ text ++ " offset by " ++ toString delta ++ " out of range"
  | .families => "IP addresses of different families"
  | .overflow => "integer overflow"

end Stencil
