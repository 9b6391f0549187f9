import NeuralDispatch.Device.Basic

/-!
# Device discovery

Drivers are published by a service manager, which lists their names.  The registry holds one device
for each name, in the order of the list.
-/

namespace NeuralDispatch

/-- Where published drivers are found. -/
structure ServiceManager where
  /-- The names under a descriptor, unless the manager cannot be reached. -/
  list : (descriptor : String) → Option (List String)
  find : (name : String) → Option Driver

/-- The manager of a fixed list of drivers, of which the first one with a name is found by it
(`StaticServiceManager`). -/
def ServiceManager.ofServices (services : List (String × Driver)) : ServiceManager where
  list descriptor := some (if descriptor = Driver.descriptor then services.map (·.1) else [])
  find name := services.lookup name

/-- The devices that are known (`DeviceRegistry`). -/
structure Registry where
  devices : List Device := []
  /-- The settings for devices that are still to come. -/
  properties : Properties

namespace Registry

def find? (r : Registry) (name : String) : Option Device := r.devices.find? (·.name == name)

/-- Adds a device, unless there is one of that name: the registry afterwards, and the device if it
is new (`register_device`). -/
def register (r : Registry) (name : String) (driver : Driver) :
    Except Fault (Registry × Option Device) :=
  if (r.find? name).isSome then .ok (r, none)
  else do
    let device ← Device.create name driver r.properties
    return ({ r with devices := r.devices ++ [device] }, some device)

/-- Registers the drivers that are found under the listed names. -/
def registerAll (find : String → Option Driver) : List String → Registry → Except Fault Registry
  | [], r => .ok r
  | name :: rest, r =>
    match find name with
    | none => registerAll find rest r
    | some driver => do
      let (r, _) ← r.register name driver
      registerAll find rest r

/-- The devices that a service manager publishes; none if there is no manager or it cannot be
reached. -/
def discover (manager : Option ServiceManager) (properties : Properties) : Except Fault Registry :=
  let registry : Registry := { properties }
  match manager with
  | none => .ok registry
  | some manager =>
    match manager.list Driver.descriptor with
    | none => .ok registry
    | some names => registerAll manager.find names registry

end Registry

end NeuralDispatch
