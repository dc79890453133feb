-- The built-in exceptions of Python that a modelled program raises, with
-- their messages.
namespace python

inductive Exn where
  | ValueError (message : String)
  | KeyError (key : String)
  | IndexError (message : String)
  | TypeError (message : String)
  | RuntimeError (message : String)
  | AssertionError (message : String)
  | AttributeError (message : String)
  | ZeroDivisionError (message : String)
  deriving DecidableEq, Repr

end python
