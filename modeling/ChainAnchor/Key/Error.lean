namespace ChainAnchor

inductive KeyError
  | invalidSecret
  | invalidPublicKey
  | invalidKey
  | recoveryFailed
  | notHex
  | missingMarker
  | noNonce
  deriving DecidableEq, Repr

def KeyError.message : KeyError → String
  | invalidSecret => "InvalidSecret"
  | invalidPublicKey => "InvalidPubKey"
  | invalidKey => "InvalidKey"
  | recoveryFailed => "RecoveryFailed"
  | notHex => "InvalidEncoding(\"invalid hexstr\")"
  | missingMarker => "InvalidEncoding(\"missing private key marker\")"
  | noNonce => "NoNonce"

end ChainAnchor
