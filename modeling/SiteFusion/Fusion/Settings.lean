namespace SiteFusion

structure Settings where
  ignoreNoInline : Bool
  maxIterations : Nat
  prepare : String
  cleanup : String
  verify : Bool
deriving DecidableEq, Repr

def Settings.default : Settings :=
  { ignoreNoInline := false
    maxIterations := 64
    prepare := "module(function(simplifycfg),mergefunc)"
    cleanup := "module(constmerge,globalopt,globaldce)"
    verify := false }

end SiteFusion
